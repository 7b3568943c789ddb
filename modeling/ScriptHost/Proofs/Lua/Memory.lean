import ScriptHost.Proofs.Lua.Keeping

/-!
# Heaps without a memory limit

Where nothing limits the memory every request is granted, and nothing is counted.  What a limited heap
holds apart from its memory is what the same heap without a limit holds.
-/

set_option autoImplicit false

namespace ScriptHost.Lua

namespace Heap

def Unlimited (h : Heap) : Prop := h.allocator = none

@[simp] theorem claim_unlimited {h : Heap} (hfree : h.Unlimited) (size : Nat) : h.claim? size = some h := by
  rw [Heap.claim?, hfree]

def withMemory (h : Heap) (allocator : Option Allocator) (spent : Nat) : Heap :=
  { h with allocator, spent }

def spending (h : Heap) (spent : Nat) : Heap := { h with spent }

/-- A request is refused, which takes a limit, or only counted. -/
theorem claim_cases (h : Heap) (allocator : Option Allocator) (spent size : Nat) :
    (allocator ≠ none ∧ (h.withMemory allocator spent).claim? size = none) ∨
      ∃ n, (h.withMemory allocator spent).claim? size = some (h.withMemory allocator n) := by
  cases allocator with
  | none => exact .inr ⟨spent, rfl⟩
  | some grants =>
    by_cases hg : grants spent size = true
    · exact .inr ⟨spent + size, if_pos hg⟩
    · exact .inl ⟨Option.some_ne_none grants, if_neg hg⟩

theorem claim_spends (h : Heap) (size : Nat) :
    (¬ h.Unlimited ∧ h.claim? size = none) ∨
      ∃ n, h.claim? size = some (h.spending n) ∧ (h.Unlimited → n = h.spent) := by
  by_cases hfree : h.Unlimited
  · exact .inr ⟨h.spent, claim_unlimited hfree size, fun _ => rfl⟩
  · obtain ⟨-, hnone⟩ | ⟨n, hsome⟩ := claim_cases h h.allocator h.spent size
    · exact .inl ⟨hfree, hnone⟩
    · exact .inr ⟨n, hsome, fun h => absurd h hfree⟩

/-- A heap keeps what decides about its memory. -/
theorem lasting_allocator (allocator : Option Allocator) :
    Lasting fun h => h.allocator = allocator where
  allocate _ _ hp := hp
  modify _ _ _ hp := hp
  script _ _ _ hp := hp
  library _ _ hp := hp
  addCell _ _ hp := hp
  setCell _ _ _ hp := hp
  serial _ hp := hp
  spend _ _ hp := hp

end Heap

section
variable {h : Heap} (hfree : h.Unlimited)
include hfree

@[simp] theorem claim_unlimited (size : Nat) (k : Heap → Step) : claim size k h = k h := by
  simp [claim, hfree]

@[simp] theorem build_unlimited (s : ByteArray) (k : Datum → Heap → Step) : build s k h = k (.string s) h :=
  claim_unlimited hfree _ _

@[simp] theorem store_unlimited (address : Nat) (key value : Datum) (k : Heap → Step) :
    store address key value k h = k (h.set address key value) := by
  simp only [store, claim_unlimited hfree]
  split <;> rfl

end

end ScriptHost.Lua
