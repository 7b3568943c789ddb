import ScriptHost.Crossing
import ScriptHost.Proofs.Lua.Memory

/-!
# Memory that a crossing takes

A value that goes into a limited heap either runs out of memory or becomes what it becomes in the same heap
without a limit; only the count of bytes differs.
-/

set_option autoImplicit false

namespace ScriptHost.Crossing
open Lua

@[simp] theorem claim_unlimited {h : Heap} (hfree : h.Unlimited) (size : Nat) : claim size h = .ok h := by
  simp [claim, hfree]

theorem claim_cases (h : Heap) (allocator : Option Allocator) (spent size : Nat) :
    (allocator ≠ none ∧ claim size (h.withMemory allocator spent) = .error .outOfMemory) ∨
      ∃ n, claim size (h.withMemory allocator spent) = .ok (h.withMemory allocator n) := by
  rcases Heap.claim_cases h allocator spent size with ⟨hlimit, hnone⟩ | ⟨n, hsome⟩
  · exact .inl ⟨hlimit, by rw [claim, hnone]⟩
  · exact .inr ⟨n, by rw [claim, hsome]⟩

def Afforded {α : Type} (allocator : Option Allocator)
    (r limited : Except ScriptError (α × Heap)) : Prop :=
  -- what comes of something in a heap without a limit, and in the same heap with this allocator:
  -- the same success, the same failure, or a refusal
  (∃ a h n, Heap.Unlimited h ∧ r = .ok (a, h) ∧ limited = .ok (a, h.withMemory allocator n)) ∨
    (∃ e, r = .error e ∧ limited = .error e) ∨
    allocator ≠ none ∧ limited = .error .outOfMemory

section
variable {α : Type} {allocator : Option Allocator}

theorem granted (a : α) {h : Heap} (hfree : h.Unlimited) (n : Nat) :
    Afforded allocator (.ok (a, h)) (.ok (a, h.withMemory allocator n)) :=
  .inl ⟨a, h, n, hfree, rfl, rfl⟩

theorem failed (e : ScriptError) : Afforded (α := α) allocator (.error e) (.error e) :=
  .inr (.inl ⟨e, rfl, rfl⟩)

theorem refused (r : Except ScriptError (α × Heap)) (hlimit : allocator ≠ none) :
    Afforded allocator r (.error .outOfMemory) := .inr (.inr ⟨hlimit, rfl⟩)

theorem claim_afforded (size : Nat) {h : Heap} (hfree : h.Unlimited) (n : Nat)
    {f : Heap → Except ScriptError (α × Heap)}
    (hf : ∀ m, Afforded allocator (f h) (f (h.withMemory allocator m))) :
    Afforded allocator
      (match claim size h with
        | .error e => .error e
        | .ok h => f h)
      (match claim size (h.withMemory allocator n) with
        | .error e => .error e
        | .ok h => f h) := by
  rw [claim_unlimited hfree]
  obtain ⟨hlimit, hc⟩ | ⟨m, hc⟩ := claim_cases h allocator n size
  · rw [hc]
    exact refused _ hlimit
  · rw [hc]
    exact hf m

end

section
variable (session : SessionId) (pins : List Pin) (allocator : Option Allocator)

mutual

theorem inward_afforded (v : Value) {h : Heap} (hfree : h.Unlimited) (n : Nat) :
    Afforded allocator (inward session pins v h)
      (inward session pins v (h.withMemory allocator n)) := by
  cases v with
  | nil => exact granted _ hfree n
  | bool b => exact granted _ hfree n
  | int i => exact granted _ hfree n
  | float x => exact granted _ hfree n
  | string s =>
    simp only [inward]
    exact claim_afforded _ hfree n fun m => granted _ hfree m
  | array items =>
    simp only [inward]
    refine claim_afforded _ hfree n fun m => ?_
    obtain ⟨t, h, k, hfree, hr, hl⟩ | ⟨e, hr, hl⟩ | ⟨hlimit, hl⟩ :=
      inwardItems_afforded items (.sized items.length 0) 1 hfree m
    · rw [hr, hl]
      exact granted (h := (h.allocate t).2) _ hfree k
    · rw [hr, hl]
      exact failed e
    · rw [hl]
      exact refused _ hlimit
  | map members =>
    simp only [inward]
    refine claim_afforded _ hfree n fun m => ?_
    obtain ⟨t, h, k, hfree, hr, hl⟩ | ⟨e, hr, hl⟩ | ⟨hlimit, hl⟩ :=
      inwardMembers_afforded members (.sized 0 members.length) hfree m
    · rw [hr, hl]
      exact granted (h := (h.allocate t).2) _ hfree k
    · rw [hr, hl]
      exact failed e
    · rw [hl]
      exact refused _ hlimit
  | function f =>
    simp only [inward]
    exact claim_afforded _ hfree n fun m => granted (h := (h.addRoutine (.host f)).2) _ hfree m
  | callable handle =>
    simp only [inward]
    split
    · exact failed _
    · exact granted _ hfree n

theorem inwardItems_afforded (items : List Value) (t : Table) (i : Nat) {h : Heap}
    (hfree : h.Unlimited) (n : Nat) :
    Afforded allocator (inwardItems session pins t i items h)
      (inwardItems session pins t i items (h.withMemory allocator n)) := by
  cases items with
  | nil => exact granted t hfree n
  | cons v rest =>
    simp only [inwardItems]
    obtain ⟨d, h, m, hfree, hr, hl⟩ | ⟨e, hr, hl⟩ | ⟨hlimit, hl⟩ :=
      inward_afforded v hfree n
    · rw [hr, hl]
      exact inwardItems_afforded rest (t.setInt i d) (i + 1) hfree m
    · rw [hr, hl]
      exact failed e
    · rw [hl]
      exact refused _ hlimit

theorem inwardMembers_afforded (members : List (String × Value)) (t : Table) {h : Heap}
    (hfree : h.Unlimited) (n : Nat) :
    Afforded allocator (inwardMembers session pins t members h)
      (inwardMembers session pins t members (h.withMemory allocator n)) := by
  match members with
  | [] => exact granted t hfree n
  | (k, v) :: rest =>
    simp only [inwardMembers]
    obtain ⟨d, h, m, hfree, hr, hl⟩ | ⟨e, hr, hl⟩ | ⟨hlimit, hl⟩ :=
      inward_afforded v hfree n
    · rw [hr, hl]
      refine claim_afforded _ hfree m fun j => ?_
      exact inwardMembers_afforded rest (t.set (tableKey k) d) hfree j
    · rw [hr, hl]
      exact failed e
    · rw [hl]
      exact refused _ hlimit

end

theorem inwardAll_afforded (vs : List Value) {h : Heap} (hfree : h.Unlimited) (n : Nat) :
    Afforded allocator (inwardAll session pins vs h)
      (inwardAll session pins vs (h.withMemory allocator n)) := by
  induction vs generalizing h n with
  | nil => exact granted [] hfree n
  | cons v rest ih =>
    simp only [inwardAll]
    obtain ⟨d, h, m, hfree, hr, hl⟩ | ⟨e, hr, hl⟩ | ⟨hlimit, hl⟩ :=
      inward_afforded session pins allocator v hfree n
    · rw [hr, hl]
      obtain ⟨ds, h, k, hfree, hrs, hls⟩ | ⟨e, hrs, hls⟩ | ⟨hlimit, hls⟩ := ih hfree m
      · simp only [hrs, hls]
        exact granted (d :: ds) hfree k
      · simp only [hrs, hls]
        exact failed e
      · simp only [hls]
        exact refused _ hlimit
    · rw [hr, hl]
      exact failed e
    · rw [hl]
      exact refused _ hlimit

variable {session pins}

theorem inward_allocator {v : Value} {d : Datum} {h h' : Heap}
    (hin : inward session pins v h = .ok (d, h')) : h'.allocator = h.allocator := by
  have hfree : (h.withMemory none 0).Unlimited := rfl
  obtain ⟨a, k, n, -, -, hl⟩ | ⟨e, -, hl⟩ | ⟨-, hl⟩ :=
    inward_afforded session pins h.allocator v hfree h.spent
  · obtain ⟨-, rfl⟩ := Prod.mk.inj (Except.ok.inj (hin.symm.trans hl))
    rfl
  · cases hin.symm.trans hl
  · cases hin.symm.trans hl

end

end ScriptHost.Crossing
