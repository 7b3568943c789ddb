import ScriptHost.Proofs.Session
import ScriptHost.Proofs.Crossing.Memory

/-!
# Values that cannot go in

What can stop a value on its way to a script is a handle whose function the session does not hold.  The
first such handle in the value decides, wherever it stands; without one the whole value goes in.
-/

set_option autoImplicit false

namespace ScriptHost

def failure? {α : Type} : Except ScriptError α → Option ScriptError
  | .ok _ => none
  | .error e => some e

theorem failure_error {α : Type} {r : Except ScriptError α} {e : ScriptError} :
    failure? r = some e ↔ r = .error e := by
  cases r <;> simp [failure?]

theorem failure_none {α : Type} {r : Except ScriptError α} :
    failure? r = none ↔ ∃ a, r = .ok a := by
  cases r <;> simp [failure?]

namespace Crossing
open Lua

variable (session : SessionId) (pins : List Pin)

def refusal (handles : List Handle) : Option ScriptError :=
  handles.findSome? fun handle => failure? (resolve session pins handle)

@[simp] theorem refusal_append (handles more : List Handle) :
    refusal session pins (handles ++ more) =
      (refusal session pins handles).or (refusal session pins more) := by
  rw [refusal, List.findSome?_append]
  rfl

theorem refusal_none (handles : List Handle) : refusal session pins handles = none ↔
    ∀ handle ∈ handles, ∃ f, resolve session pins handle = .ok f := by
  simp only [refusal, List.findSome?_eq_none_iff, failure_none]

theorem refusal_marshal {handles : List Handle} {e : ScriptError}
    (h : refusal session pins handles = some e) : e.kind = .marshal := by
  obtain ⟨handle, -, he⟩ := List.exists_of_findSome?_eq_some h
  exact Session.resolve_error session pins handle e (failure_error.mp he)

mutual

theorem inward_failure (v : Value) {h : Heap} (hfree : h.Unlimited) :
    failure? (inward session pins v h) = refusal session pins v.handles := by
  cases v with
  | string s =>
    rw [inward, claim_unlimited hfree]
    rfl
  | array items =>
    have hitems := inwardItems_failure items (.sized items.length 0) 1 hfree
    rw [inward, claim_unlimited hfree, Value.handles, ← hitems]
    dsimp only
    split <;> next heq => rw [heq]; rfl
  | map members =>
    have hmembers := inwardMembers_failure members (.sized 0 members.length) hfree
    rw [inward, claim_unlimited hfree, Value.handles, ← hmembers]
    dsimp only
    split <;> next heq => rw [heq]; rfl
  | function f =>
    rw [inward, claim_unlimited hfree]
    rfl
  | callable handle =>
    rw [inward, Value.handles, refusal, List.findSome?_singleton]
    split <;> next heq => rw [heq]; rfl
  | _ => rfl

theorem inwardItems_failure (items : List Value) (t : Table) (i : Nat) {h : Heap}
    (hfree : h.Unlimited) :
    failure? (inwardItems session pins t i items h) =
      refusal session pins (Value.itemHandles items) := by
  cases items with
  | nil => rfl
  | cons v rest =>
    have hv := inward_failure v hfree
    rw [inwardItems, Value.itemHandles, refusal_append, ← hv]
    split
    · next e heq =>
      rw [heq]
      rfl
    · next d h' heq =>
      rw [heq]
      exact inwardItems_failure rest (t.setInt i d) (i + 1) ((inward_allocator heq).trans hfree)

theorem inwardMembers_failure (members : List (String × Value)) (t : Table) {h : Heap}
    (hfree : h.Unlimited) :
    failure? (inwardMembers session pins t members h) =
      refusal session pins (Value.memberHandles members) := by
  match members with
  | [] => rfl
  | (k, v) :: rest =>
    have hv := inward_failure v hfree
    rw [inwardMembers, Value.memberHandles, refusal_append, ← hv]
    split
    · next e heq =>
      rw [heq]
      rfl
    · next d h' heq =>
      have hfree' : h'.Unlimited := (inward_allocator heq).trans hfree
      rw [heq, claim_unlimited hfree']
      exact inwardMembers_failure rest (t.set (tableKey k) d) hfree'

end

/-- Arguments are like the items of one value. -/
theorem inwardAll_failure (vs : List Value) {h : Heap} (hfree : h.Unlimited) :
    failure? (inwardAll session pins vs h) = refusal session pins (Value.itemHandles vs) := by
  induction vs generalizing h with
  | nil => rfl
  | cons v rest ih =>
    rw [inwardAll, Value.itemHandles, refusal_append, ← inward_failure session pins v hfree]
    split
    · next e heq =>
      rw [heq]
      rfl
    · next d h' heq =>
      rw [heq]
      show _ = refusal session pins (Value.itemHandles rest)
      rw [← ih ((inward_allocator heq).trans hfree)]
      cases inwardAll session pins rest h' <;> rfl

def Decided {α : Type} (h : Heap) (handles : List Handle) (r : Except ScriptError α) : Prop :=
  -- a result is that of the first handle that resolves to nothing, unless the memory runs out
  failure? r = refusal session pins handles ∨ ¬ h.Unlimited ∧ r = .error .outOfMemory

theorem afforded_decided {α : Type} {h : Heap} {handles : List Handle}
    {r limited : Except ScriptError (α × Heap)} (ha : Afforded h.allocator r limited)
    (hr : failure? r = refusal session pins handles) : Decided session pins h handles limited := by
  obtain ⟨a, h', n, -, rfl, rfl⟩ | ⟨e, rfl, rfl⟩ | hrefused := ha
  · exact .inl hr
  · exact .inl hr
  · exact .inr hrefused

theorem inward_decided (v : Value) (h : Heap) :
    Decided session pins h v.handles (inward session pins v h) := by
  have hfree : (h.withMemory none 0).Unlimited := rfl
  exact afforded_decided session pins (inward_afforded session pins h.allocator v hfree h.spent)
    (inward_failure session pins v hfree)

theorem inwardAll_decided (vs : List Value) (h : Heap) :
    Decided session pins h (Value.itemHandles vs) (inwardAll session pins vs h) := by
  have hfree : (h.withMemory none 0).Unlimited := rfl
  exact afforded_decided session pins (inwardAll_afforded session pins h.allocator vs hfree h.spent)
    (inwardAll_failure session pins vs hfree)

end Crossing

namespace Session

def Refuses (s : Session) (e : ScriptError) : Prop :=
  -- what the session answers to a value that cannot go in: an error of kind marshal, unless a
  -- limited memory ran out before
  e.kind = .marshal ∨ ¬ s.heap.Unlimited ∧ e = .outOfMemory

def Holds (s : Session) (handle : Handle) : Prop :=
  handle.session = s.id ∧ ∃ p ∈ s.pins, p.slot = handle.slot

theorem holds_iff {s : Session} (hs : s.Sound) (handle : Handle) :
    s.Holds handle ↔ ∃ f, Crossing.resolve s.id s.pins handle = .ok f := by
  simp only [resolve_iff hs, Holds]
  constructor
  · rintro ⟨hid, p, hp, hslot⟩
    exact ⟨p.function, hid, p, hp, hslot, rfl⟩
  · rintro ⟨f, hid, p, hp, hslot, -⟩
    exact ⟨hid, p, hp, hslot⟩

theorem inward_decided (s : Session) (v : Value) :
    Crossing.Decided s.id s.pins s.heap v.handles (s.inward v) := by
  obtain hd | ⟨hlimit, hd⟩ := Crossing.inward_decided s.id s.pins v s.heap
  · left
    rw [← hd, inward]
    cases Crossing.inward s.id s.pins v s.heap <;> rfl
  · right
    rw [inward, hd]
    exact ⟨hlimit, rfl⟩

theorem inwardAll_decided (s : Session) (vs : List Value) :
    Crossing.Decided s.id s.pins s.heap (Value.itemHandles vs) (s.inwardAll vs) := by
  obtain hd | ⟨hlimit, hd⟩ := Crossing.inwardAll_decided s.id s.pins vs s.heap
  · left
    rw [← hd, inwardAll]
    cases Crossing.inwardAll s.id s.pins vs s.heap <;> rfl
  · right
    rw [inwardAll, hd]
    exact ⟨hlimit, rfl⟩

section
variable {s : Session} {α : Type} {r : Except ScriptError α} {handles : List Handle}

theorem decided_refuses (hr : Crossing.Decided s.id s.pins s.heap handles r) {e : ScriptError}
    (he : r = .error e) : s.Refuses e := by
  subst he
  obtain hsome | ⟨hlimit, herror⟩ := hr
  · exact .inl (Crossing.refusal_marshal _ _ hsome.symm)
  · cases herror
    exact .inr ⟨hlimit, rfl⟩

variable (hs : s.Sound) (hr : Crossing.Decided s.id s.pins s.heap handles r)
include hs hr

/-- What succeeds had every handle. -/
theorem decided_holds {a : α} (ha : r = .ok a) : ∀ handle ∈ handles, s.Holds handle := by
  subst ha
  obtain hnone | ⟨-, herror⟩ := hr
  · simp only [holds_iff hs]
    exact (Crossing.refusal_none _ _ _).mp hnone.symm
  · cases herror

/-- One handle that the session does not hold is enough. -/
theorem decided_refused (h : ∃ handle ∈ handles, ¬ s.Holds handle) :
    ∃ e, s.Refuses e ∧ r = .error e := by
  cases hresult : r with
  | ok a =>
    obtain ⟨handle, hmem, hheld⟩ := h
    exact absurd (decided_holds hs hr hresult handle hmem) hheld
  | error e => exact ⟨e, decided_refuses hr hresult, rfl⟩

end

theorem inward_iff {s : Session} (hs : s.Sound) (hfree : s.heap.Unlimited) (v : Value) :
    (∃ d s', s.inward v = .ok (d, s')) ↔ ∀ handle ∈ v.handles, s.Holds handle := by
  constructor
  · rintro ⟨d, s', hin⟩
    exact decided_holds hs (inward_decided s v) hin
  · intro hheld
    simp only [holds_iff hs] at hheld
    rw [← Crossing.refusal_none, ← Crossing.inward_failure s.id s.pins v hfree, failure_none] at hheld
    obtain ⟨⟨d, h⟩, hin⟩ := hheld
    exact ⟨d, _, by rw [inward, hin]; rfl⟩

/-- A function that was unpinned is not pinned again. -/
theorem keeps_unheld {s s' : Session} (h : s.Keeps s') {handle : Handle}
    (hissued : handle.session = s.id → handle.slot < s.nextSlot) (hheld : ¬ s.Holds handle) :
    ¬ s'.Holds handle := by
  rintro ⟨hid, p, hp, hslot⟩
  have hown : handle.session = s.id := hid.trans h.id
  have hlt : p.slot < s.nextSlot := hslot ▸ hissued hown
  rcases Nat.lt_or_ge s.releases s'.releases with hmore | hsame
  · exact absurd hlt (Nat.not_lt.mpr (h.cleared hmore p hp))
  · have hequal : s'.releases = s.releases := Nat.le_antisymm hsame h.releases
    exact hheld ⟨hown, p, (h.pins hequal p hlt).mp hp, hslot⟩

end Session

end ScriptHost
