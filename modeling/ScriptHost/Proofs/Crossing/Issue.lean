import Mathlib.Data.List.Nodup
import ScriptHost.Proofs.Crossing.Keys
import ScriptHost.Proofs.Crossing.Sequence

/-!
# Slots that a conversion gives out

Whether it succeeds or not, an outward conversion only ever adds functions to those that have a slot,
each under the next number.  Lists and maps are converted entry by entry; what holds of that is stated
once, for keys of any kind.
-/

set_option autoImplicit false

namespace ScriptHost.Crossing
open Lua

def Issue.addAll (s : Issue) (fs : List Datum) : Issue := fs.foldl (fun s f => (s.add f).2) s

@[simp] theorem addAll_append (s : Issue) (fs gs : List Datum) :
    s.addAll (fs ++ gs) = (s.addAll fs).addAll gs := List.foldl_append

@[simp] theorem addAll_session (s : Issue) (fs : List Datum) : (s.addAll fs).session = s.session := by
  induction fs generalizing s with
  | nil => rfl
  | cons f fs ih => exact ih _

@[simp] theorem addAll_next (s : Issue) (fs : List Datum) : (s.addAll fs).next = s.next + fs.length := by
  induction fs generalizing s with
  | nil => rfl
  | cons f fs ih =>
    have h := ih (s.add f).2
    simp only [Issue.addAll, List.foldl_cons, List.length_cons] at *
    rw [h]
    simp only [Issue.add]
    omega

theorem addAll_keeps (s : Issue) (fs : List Datum) (p : Nat × Datum) (hp : p ∈ s.functions) :
    p ∈ (s.addAll fs).functions := by
  induction fs generalizing s with
  | nil => exact hp
  | cons f fs ih => exact ih _ (by simp [Issue.add, hp])

def Adds {α β : Type} (convert : Conversion α β) : Prop :=
  ∀ a s, ∃ fs, (convert a s).2 = s.addAll fs

def outwardEntries {κ : Type} (readKey : Datum → Except ScriptError κ)
    (convert : Conversion Datum Value) : Conversion (List (Datum × Datum)) (List (κ × Value))
  | [], s => (.ok [], s)
  | (k, d) :: rest, s =>
    match readKey k with
    | .error e => (.error e, s)
    | .ok key =>
      match convert d s with
      | (.error e, s) => (.error e, s)
      | (.ok v, s) =>
        match outwardEntries readKey convert rest s with
        | (.error e, s) => (.error e, s)
        | (.ok entries, s) => (.ok ((key, v) :: entries), s)

theorem outwardItems_entries (convert : Conversion Datum Value) :
    outwardItems convert = outwardEntries .ok convert := by
  funext pairs s
  induction pairs generalizing s with
  | nil => rfl
  | cons e rest ih =>
    simp only [outwardItems, outwardEntries, ih]
    rcases convert e.2 s with ⟨_ | v, s₁⟩
    · rfl
    · dsimp only
      rcases outwardEntries Except.ok convert rest s₁ with ⟨_ | tail, s₂⟩ <;> rfl

theorem outwardMembers_entries (convert : Conversion Datum Value) :
    outwardMembers convert = outwardEntries mapKey convert := by
  funext pairs s
  induction pairs generalizing s with
  | nil => rfl
  | cons e rest ih =>
    simp only [outwardMembers, outwardEntries, ih]
    cases mapKey e.1 with
    | error e => rfl
    | ok key =>
      dsimp only
      rcases convert e.2 s with ⟨_ | v, s₁⟩
      · rfl
      · dsimp only
        rcases outwardEntries mapKey convert rest s₁ with ⟨_ | tail, s₂⟩ <;> rfl

section
variable {κ : Type} (readKey : Datum → Except ScriptError κ) (convert : Conversion Datum Value)

theorem outwardEntries_adds (hc : Adds convert) : Adds (outwardEntries readKey convert) := by
  intro pairs s
  induction pairs generalizing s with
  | nil => exact ⟨[], rfl⟩
  | cons e rest ih =>
    obtain ⟨k, d⟩ := e
    obtain ⟨fs, hfs⟩ := hc d s
    simp only [outwardEntries]
    cases readKey k with
    | error e => exact ⟨[], rfl⟩
    | ok key =>
      rcases hv : convert d s with ⟨r, s₁⟩
      rw [hv] at hfs
      obtain rfl : s₁ = s.addAll fs := hfs
      cases r with
      | error e => exact ⟨fs, rfl⟩
      | ok v =>
        obtain ⟨gs, hgs⟩ := ih (s.addAll fs)
        refine ⟨fs ++ gs, ?_⟩
        rw [addAll_append, ← hgs]
        dsimp only
        rcases outwardEntries readKey convert rest (s.addAll fs) with ⟨r, s₂⟩
        cases r <;> rfl

def Between (s s₁ s₂ s' : Issue) : Prop :=
  (∃ fs, s₁ = s.addAll fs) ∧ ∃ gs, s' = s₂.addAll gs

theorem outwardEntries_ok (hc : Adds convert) (pairs : List (Datum × Datum)) (s s' : Issue)
    (entries : List (κ × Value))
    (h : outwardEntries readKey convert pairs s = (.ok entries, s')) :
    entries.length = pairs.length ∧ ∀ p ∈ pairs.zip entries,
      readKey p.1.1 = .ok p.2.1 ∧
        ∃ s₁ s₂, Between s s₁ s₂ s' ∧ convert p.1.2 s₁ = (.ok p.2.2, s₂) := by
  induction pairs generalizing s entries with
  | nil =>
    simp only [outwardEntries, Prod.mk.injEq, Except.ok.injEq] at h
    obtain ⟨rfl, rfl⟩ := h
    simp
  | cons e rest ih =>
    obtain ⟨k, d⟩ := e
    simp only [outwardEntries] at h
    split at h
    · simp at h
    · next key hkey =>
      split at h
      · simp at h
      · next v s₁ hv =>
        split at h
        · simp at h
        · next tail s₂ htail =>
          simp only [Prod.mk.injEq, Except.ok.injEq] at h
          obtain ⟨rfl, rfl⟩ := h
          obtain ⟨fs, hfs⟩ := hc d s
          obtain ⟨gs, hgs⟩ := outwardEntries_adds readKey convert hc rest s₁
          rw [hv] at hfs
          rw [htail] at hgs
          obtain ⟨hlen, hrest⟩ := ih s₁ tail htail
          refine ⟨by simp [hlen], ?_⟩
          intro p hp
          rcases List.mem_cons.mp hp with rfl | hp
          · exact ⟨hkey, s, s₁, ⟨⟨[], rfl⟩, gs, hgs⟩, hv⟩
          · obtain ⟨hk, t₁, t₂, ⟨⟨as, ha⟩, hb⟩, hconv⟩ := hrest p hp
            exact ⟨hk, t₁, t₂, ⟨⟨fs ++ as, by rw [addAll_append, ← hfs, ha]⟩, hb⟩, hconv⟩

/-- Entries all of whose keys and data cross do so together. -/
theorem outwardEntries_succeeds (pairs : List (Datum × Datum)) (s : Issue)
    (hk : ∀ e ∈ pairs, ∃ key, readKey e.1 = .ok key)
    (hd : ∀ e ∈ pairs, ∀ s, ∃ v s', convert e.2 s = (.ok v, s')) :
    ∃ entries s', outwardEntries readKey convert pairs s = (.ok entries, s') := by
  induction pairs generalizing s with
  | nil => exact ⟨[], s, rfl⟩
  | cons e rest ih =>
    obtain ⟨key, hkey⟩ := hk e (by simp)
    obtain ⟨v, s₁, hv⟩ := hd e (by simp) s
    obtain ⟨tail, s₂, htail⟩ := ih s₁ (fun x hx => hk x (by simp [hx])) (fun x hx => hd x (by simp [hx]))
    exact ⟨(key, v) :: tail, s₂, by simp only [outwardEntries, hkey, hv, htail]⟩

/-- What fails fails in a key or in a datum. -/
theorem outwardEntries_error (P : ScriptError → Prop) (pairs : List (Datum × Datum)) (s s' : Issue)
    (e : ScriptError) (hk : ∀ x ∈ pairs, ∀ e, readKey x.1 = .error e → P e)
    (hd : ∀ x ∈ pairs, ∀ s s' e, convert x.2 s = (.error e, s') → P e)
    (h : outwardEntries readKey convert pairs s = (.error e, s')) : P e := by
  induction pairs generalizing s with
  | nil => simp [outwardEntries] at h
  | cons x rest ih =>
    obtain ⟨k, d⟩ := x
    simp only [outwardEntries] at h
    split at h
    · next e' hkey =>
      simp only [Prod.mk.injEq, Except.error.injEq] at h
      exact hk (k, d) (by simp) e (h.1 ▸ hkey)
    · split at h
      · next e' s₁ hv =>
        simp only [Prod.mk.injEq, Except.error.injEq] at h
        exact hd (k, d) (by simp) s s₁ e (h.1 ▸ hv)
      · next v s₁ hv =>
        split at h
        · next e' s₂ htail =>
          simp only [Prod.mk.injEq, Except.error.injEq] at h
          exact ih s₁ (fun x hx => hk x (by simp [hx])) (fun x hx => hd x (by simp [hx]))
            (h.1 ▸ h.2 ▸ htail)
        · simp at h

end

theorem outwardTable_adds (convert : Conversion Datum Value) (hc : Adds convert) :
    Adds (outwardTable convert) := by
  intro pairs s
  unfold outwardTable
  cases sequenceLength? (pairs.map (·.1)) with
  | some size =>
    obtain ⟨fs, hfs⟩ := outwardEntries_adds .ok convert hc pairs s
    refine ⟨fs, ?_⟩
    rw [← hfs]
    simp only [outwardItems_entries]
    rcases outwardEntries .ok convert pairs s with ⟨r, s'⟩
    cases r <;> rfl
  | none =>
    obtain ⟨fs, hfs⟩ := outwardEntries_adds mapKey convert hc pairs s
    refine ⟨fs, ?_⟩
    rw [← hfs]
    simp only [outwardMembers_entries]
    rcases outwardEntries mapKey convert pairs s with ⟨r, s'⟩
    cases r <;> rfl

/-- A datum that is no table crosses without a look at the heap. -/
theorem outwardWithin_leaf (h : Heap) (fuel : Nat) (path : List Nat) (d : Datum) (s : Issue)
    (hd : ∀ a, d ≠ .table a) : outwardWithin h fuel path d s = outwardWithin h 0 [] d s := by
  cases d with
  | table a => exact absurd rfl (hd a)
  | _ => simp only [outwardWithin]

theorem outwardWithin_adds (h : Heap) (fuel : Nat) (path : List Nat) :
    Adds (outwardWithin h fuel path) := by
  intro d s
  induction fuel generalizing path d s with
  | zero =>
    cases d with
    | function a => exact ⟨[.function a], by simp [outwardWithin, Issue.addAll]⟩
    | _ => exact ⟨[], by simp [outwardWithin, Issue.addAll]⟩
  | succ fuel ih =>
    cases d with
    | table a =>
      simp only [outwardWithin]
      split
      · exact ⟨[], rfl⟩
      · exact outwardTable_adds _ (fun d s => ih _ d s) _ s
    | function a => exact ⟨[.function a], by simp [outwardWithin, Issue.addAll]⟩
    | _ => exact ⟨[], by simp [outwardWithin, Issue.addAll]⟩

end ScriptHost.Crossing
