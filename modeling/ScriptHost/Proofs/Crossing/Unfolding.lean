import ScriptHost.Proofs.Crossing.Issue

/-!
# What crosses outward

The tables of a heap may be shared and may hold themselves.  `Crosses` says of a datum that nothing on
the way into it stops it from being a host value, `Unfolds` which host value that is; the second implies
the first, because a host value is finite.  The converse is the conversion itself: a path of tables around
a datum never repeats one, so as much fuel as there are tables is enough.
-/

set_option autoImplicit false

namespace ScriptHost.Crossing
open Lua

inductive Reaches (h : Heap) (d : Datum) : Datum → Prop
  | here : Reaches h d d
  | entry {a : Nat} {k e : Datum} (hr : Reaches h d (.table a)) (he : (k, e) ∈ (h.table a).pairs) :
      Reaches h d e

theorem reaches_head {h : Heap} {a : Nat} {k d e : Datum} (hd : (k, d) ∈ (h.table a).pairs)
    (hr : Reaches h d e) : Reaches h (.table a) e := by
  induction hr with
  | here => exact .entry .here hd
  | entry _ he ih => exact .entry ih he

theorem reaches_cases {h : Heap} {d e : Datum} (hr : Reaches h d e) :
    e = d ∨ ∃ a k x, d = .table a ∧ (k, x) ∈ (h.table a).pairs ∧ Reaches h x e := by
  induction hr with
  | here => exact .inl rfl
  | entry _ he ih =>
    rcases ih with hd | ⟨a, k, x, hd, hx, hr⟩
    · exact .inr ⟨_, _, _, hd.symm, he, .here⟩
    · exact .inr ⟨a, k, x, hd, hx, .entry hr he⟩

def Looped (h : Heap) (a : Nat) : Prop :=
  ∃ k d, (k, d) ∈ (h.table a).pairs ∧ Reaches h d (.table a)

def KeyCrosses : Datum → Prop
  | .string s => s.IsValidUTF8
  | .int _ => True
  | .float _ => True
  | .bool _ => True
  | _ => False

def DatumCrosses : Datum → Prop
  | .string s => s.IsValidUTF8
  | .thread _ => False
  | .userdata _ => False
  | .failure _ _ => False
  | _ => True

/-- The data that cross: no table is met again on the way into it, every key has a text, and nothing
that is met is a thread or userdata. -/
structure Crosses (h : Heap) (d : Datum) : Prop where
  unlooped : ∀ a, Reaches h d (.table a) → ¬ Looped h a
  keys : ∀ a k e, Reaches h d (.table a) → (k, e) ∈ (h.table a).pairs → KeyCrosses k
  data : ∀ e, Reaches h d e → DatumCrosses e

theorem crosses_entry {h : Heap} {a : Nat} {k d : Datum} (hc : Crosses h (.table a))
    (hd : (k, d) ∈ (h.table a).pairs) : Crosses h d where
  unlooped b hb := hc.unlooped b (reaches_head hd hb)
  keys b k e hb := hc.keys b k e (reaches_head hd hb)
  data e he := hc.data e (reaches_head hd he)

/-- The host value is the datum with every table written out, wherever and however often it is met.
`issued` says for which function a handle was given out. -/
inductive Unfolds (h : Heap) (issued : Handle → Datum → Prop) : Datum → Value → Prop
  | nil : Unfolds h issued .nil .nil
  | bool (b : Bool) : Unfolds h issued (.bool b) (.bool b)
  | int (n : Int64) : Unfolds h issued (.int n) (.int n)
  | float (x : Binary64) : Unfolds h issued (.float x) (.float x)
  | string (s : String) : Unfolds h issued (.text s) (.string s)
  | function (a : Nat) (handle : Handle) (hi : issued handle (.function a)) :
      Unfolds h issued (.function a) (.callable handle)
  | list (a : Nat) (items : List Value) (hn : ((h.table a).pairs.map (·.1)).Nodup)
      (hs : Sequential ((h.table a).pairs.map (·.1)))
      (hl : items.length = (h.table a).pairs.length)
      (hi : ∀ k d i, (k, d) ∈ (h.table a).pairs → Table.index? k = some i →
        Unfolds h issued d (items.getD (i - 1) .nil)) :
      Unfolds h issued (.table a) (.array items)
  | map (a : Nat) (members : List (String × Value)) (hn : ((h.table a).pairs.map (·.1)).Nodup)
      (hs : ¬ Sequential ((h.table a).pairs.map (·.1)))
      (hl : members.length = (h.table a).pairs.length)
      (hk : ∀ p ∈ (h.table a).pairs.zip members, mapKey p.1.1 = .ok p.2.1)
      (hm : ∀ p ∈ (h.table a).pairs.zip members, Unfolds h issued p.1.2 p.2.2) :
      Unfolds h issued (.table a) (.map (Dict.ofList members))

theorem unfolds_mono {h : Heap} {issued issued' : Handle → Datum → Prop}
    (hi : ∀ handle f, issued handle f → issued' handle f) {d : Datum} {v : Value}
    (hu : Unfolds h issued d v) : Unfolds h issued' d v := by
  induction hu with
  | nil => exact .nil
  | bool b => exact .bool b
  | int n => exact .int n
  | float x => exact .float x
  | string s => exact .string s
  | function a handle hf => exact .function a handle (hi _ _ hf)
  | list a items hn hs hl _ ih => exact .list a items hn hs hl ih
  | map a members hn hs hl hk _ ih => exact .map a members hn hs hl hk ih

/-- The text of a key is read exactly when the key has one. -/
theorem mapKey_ok_iff (k : Datum) : (∃ key, mapKey k = .ok key) ↔ KeyCrosses k := by
  cases k with
  | string s =>
    simp only [mapKey, KeyCrosses, textOf_iff]
    constructor
    · rintro ⟨t, rfl⟩
      exact t.isValidUTF8
    · exact fun hs => ⟨String.fromUTF8 s hs, rfl⟩
  | _ => simp [mapKey, KeyCrosses]

theorem mapKey_error (k : Datum) (e : ScriptError) (h : mapKey k = .error e) : e.kind = .marshal := by
  cases k with
  | string s =>
    simp only [mapKey, textOf] at h
    split at h
    · simp at h
    · obtain rfl := Except.error.inj h
      rfl
  | int n => simp [mapKey] at h
  | float x => simp [mapKey] at h
  | bool b => simp [mapKey] at h
  | _ =>
    obtain rfl := Except.error.inj h
    rfl

theorem reaches_leaf {h : Heap} {d e : Datum} (hd : ∀ a, d ≠ .table a) (hr : Reaches h d e) :
    e = d := by
  rcases reaches_cases hr with he | ⟨a, _, _, ha, _⟩
  · exact he
  · exact absurd ha (hd a)

theorem crosses_leaf {h : Heap} {d : Datum} (hd : ∀ a, d ≠ .table a) (hc : DatumCrosses d) :
    Crosses h d where
  unlooped a ha := absurd (reaches_leaf hd ha).symm (hd a)
  keys a _ _ ha := absurd (reaches_leaf hd ha).symm (hd a)
  data _ he := reaches_leaf hd he ▸ hc

theorem crosses_table {h : Heap} {a : Nat}
    (he : ∀ k d, (k, d) ∈ (h.table a).pairs → KeyCrosses k ∧ Crosses h d) :
    Crosses h (.table a) where
  unlooped b hb := by
    rcases reaches_cases hb with hab | ⟨a', k, x, ha', hx, hr⟩
    · obtain rfl : b = a := by simpa using hab
      rintro ⟨k, d, hd, hback⟩
      exact (he k d hd).2.unlooped b hback ⟨k, d, hd, hback⟩
    · obtain rfl : a = a' := by simpa using ha'
      exact (he k x hx).2.unlooped b hr
  keys b k e hb hk := by
    rcases reaches_cases hb with hab | ⟨a', l, x, ha', hx, hr⟩
    · obtain rfl : b = a := by simpa using hab
      exact (he k e hk).1
    · obtain rfl : a = a' := by simpa using ha'
      exact (he l x hx).2.keys b k e hr hk
  data _ hr := by
    rcases reaches_cases hr with rfl | ⟨a', k, x, ha', hx, hr⟩
    · trivial
    · obtain rfl : a = a' := by simpa using ha'
      exact (he k x hx).2.data _ hr

theorem sequential_index {keys : List Datum} (hs : Sequential keys) {k : Datum} (hk : k ∈ keys) :
    ∃ i, Table.index? k = some i ∧ 1 ≤ i ∧ i ≤ keys.length := by
  obtain ⟨i, hi, hb⟩ := hs k hk
  obtain ⟨_, _, _, h1⟩ := (index_iff k i).mp hi
  exact ⟨i, hi, h1, hb⟩

theorem key_of_index {k : Datum} {i : Nat} (hi : Table.index? k = some i) : KeyCrosses k := by
  obtain ⟨n, rfl, -⟩ := (index_iff k i).mp hi
  trivial

theorem zip_of_mem {α β : Type} {as : List α} {bs : List β} (hl : bs.length = as.length) {a : α}
    (ha : a ∈ as) : ∃ b, (a, b) ∈ as.zip bs := by
  obtain ⟨i, hi, rfl⟩ := List.mem_iff_getElem.mp ha
  have hz : i < (as.zip bs).length := by simp; omega
  exact ⟨bs[i], by simpa using List.getElem_mem hz⟩

theorem zip_of_mem_right {α β : Type} {as : List α} {bs : List β} (hl : bs.length = as.length)
    {b : β} (hb : b ∈ bs) : ∃ a, (a, b) ∈ as.zip bs := by
  obtain ⟨i, hi, rfl⟩ := List.mem_iff_getElem.mp hb
  have hz : i < (as.zip bs).length := by simp; omega
  exact ⟨as[i], by simpa using List.getElem_mem hz⟩

/-- Only what crosses has a written-out form, because that form is finite. -/
theorem unfolds_crosses {h : Heap} {issued : Handle → Datum → Prop} {d : Datum} {v : Value}
    (hu : Unfolds h issued d v) : Crosses h d := by
  induction hu with
  | string s => exact crosses_leaf (by simp [Datum.text]) s.isValidUTF8
  | list a items hn hs hl _ ih =>
    apply crosses_table
    intro k d hd
    obtain ⟨i, hi, -⟩ := sequential_index hs (List.mem_map.mpr ⟨_, hd, rfl⟩)
    exact ⟨key_of_index hi, ih k d i hd hi⟩
  | map a members hn hs hl hk _ ih =>
    apply crosses_table
    intro k d hd
    obtain ⟨m, hm⟩ := zip_of_mem hl hd
    exact ⟨(mapKey_ok_iff k).mp ⟨_, hk _ hm⟩, ih _ hm⟩
  | _ => exact crosses_leaf (by simp) trivial

def Issued (s s' : Issue) (handle : Handle) (f : Datum) : Prop :=
  -- a handle that was given out for a function between two states of issue
  handle.session = s.session ∧ s.next ≤ handle.slot ∧ (handle.slot, f) ∈ s'.functions

theorem issued_between {s s₁ s₂ s' : Issue} (hb : Between s s₁ s₂ s') (handle : Handle) (f : Datum)
    (hi : Issued s₁ s₂ handle f) : Issued s s' handle f := by
  obtain ⟨⟨fs, rfl⟩, gs, rfl⟩ := hb
  obtain ⟨hsession, hslot, hf⟩ := hi
  rw [addAll_session] at hsession
  rw [addAll_next] at hslot
  exact ⟨hsession, by omega, addAll_keeps _ _ _ hf⟩

/-- The three ways a table ends: as a list, as a map, or with the failure of an entry. -/
theorem outwardTable_ok (convert : Conversion Datum Value) (pairs : List (Datum × Datum))
    (hn : (pairs.map (·.1)).Nodup) (s s' : Issue) (v : Value)
    (h : outwardTable convert pairs s = (.ok v, s')) :
    (Sequential (pairs.map (·.1)) ∧ ∃ entries, v = .array (place pairs.length entries) ∧
      outwardEntries .ok convert pairs s = (.ok entries, s')) ∨
    (¬ Sequential (pairs.map (·.1)) ∧ ∃ members, v = .map (Dict.ofList members) ∧
      outwardEntries mapKey convert pairs s = (.ok members, s')) := by
  unfold outwardTable at h
  have hseq := sequenceLength_iff (pairs.map (·.1)) hn
  split at h
  · next size hsize =>
    obtain ⟨rfl, hs⟩ := (hseq size).mp hsize
    rw [outwardItems_entries] at h
    split at h
    · next entries s₁ he =>
      simp only [Prod.mk.injEq, Except.ok.injEq] at h
      obtain ⟨rfl, rfl⟩ := h
      exact .inl ⟨hs, entries, by simp, he⟩
    · simp at h
  · next hsize =>
    have hs : ¬ Sequential (pairs.map (·.1)) := by
      intro hs
      rw [(hseq _).mpr ⟨rfl, hs⟩] at hsize
      simp at hsize
    rw [outwardMembers_entries] at h
    split at h
    · next members s₁ hm =>
      simp only [Prod.mk.injEq, Except.ok.injEq] at h
      obtain ⟨rfl, rfl⟩ := h
      exact .inr ⟨hs, members, rfl, hm⟩
    · simp at h

theorem entries_keys {convert : Conversion Datum Value} (hc : Adds convert)
    {pairs : List (Datum × Datum)} {s s' : Issue} {entries : List (Datum × Value)}
    (h : outwardEntries .ok convert pairs s = (.ok entries, s')) :
    entries.map (·.1) = pairs.map (·.1) := by
  obtain ⟨hl, he⟩ := outwardEntries_ok .ok convert hc pairs s s' entries h
  apply List.ext_getElem (by simp [hl])
  intro i h1 h2
  simp only [List.length_map] at h1 h2
  have hz : i < (pairs.zip entries).length := by simp; omega
  have hp := (he _ (List.getElem_mem hz)).1
  simpa using (Except.ok.inj hp).symm

theorem leaf_unfolds (h : Heap) (fuel : Nat) (path : List Nat) (d : Datum) (s s' : Issue) (v : Value)
    (hd : ∀ a, d ≠ .table a) (hv : outwardWithin h fuel path d s = (.ok v, s')) :
    Unfolds h (Issued s s') d v := by
  rw [outwardWithin_leaf h fuel path d s hd] at hv
  cases d with
  | table a => exact absurd rfl (hd a)
  | string t =>
    simp only [outwardWithin, Prod.mk.injEq] at hv
    cases ht : textOf t with
    | error e => simp [ht, Except.map] at hv
    | ok text =>
      obtain rfl := (textOf_iff t text).mp ht
      rw [ht] at hv
      obtain rfl := Except.ok.inj hv.1
      exact .string text
  | function a =>
    simp only [outwardWithin, Issue.add, Prod.mk.injEq, Except.ok.injEq] at hv
    obtain ⟨rfl, rfl⟩ := hv
    exact .function a _ ⟨rfl, Nat.le_refl _, by simp⟩
  | nil =>
    obtain ⟨rfl, -⟩ : v = .nil ∧ s = s' := by simpa [outwardWithin, eq_comm] using hv
    exact .nil
  | bool b =>
    obtain ⟨rfl, -⟩ : v = .bool b ∧ s = s' := by simpa [outwardWithin, eq_comm] using hv
    exact .bool b
  | int n =>
    obtain ⟨rfl, -⟩ : v = .int n ∧ s = s' := by simpa [outwardWithin, eq_comm] using hv
    exact .int n
  | float x =>
    obtain ⟨rfl, -⟩ : v = .float x ∧ s = s' := by simpa [outwardWithin, eq_comm] using hv
    exact .float x
  | _ => simp [outwardWithin] at hv

/-- In a list that a table becomes, each entry's value stands at the index of its key. -/
theorem entries_placed {convert : Conversion Datum Value} (hc : Adds convert)
    {pairs : List (Datum × Datum)} (hn : (pairs.map (·.1)).Nodup) (hs : Sequential (pairs.map (·.1)))
    {s s' : Issue} {entries : List (Datum × Value)}
    (he : outwardEntries .ok convert pairs s = (.ok entries, s')) {k d : Datum} {i : Nat}
    (hkd : (k, d) ∈ pairs) (hi : Table.index? k = some i) :
    ∃ v s₁ s₂, (place pairs.length entries)[i - 1]? = some v ∧ Between s s₁ s₂ s' ∧
      convert d s₁ = (.ok v, s₂) := by
  obtain ⟨hl, hz⟩ := outwardEntries_ok .ok convert hc _ s s' entries he
  have hkeys := entries_keys hc he
  obtain ⟨⟨k', x⟩, hx⟩ := zip_of_mem hl hkd
  obtain ⟨hk, s₁, s₂, hb, hconv⟩ := hz _ hx
  obtain rfl : k = k' := Except.ok.inj hk
  obtain ⟨j, hj, -, hle⟩ := sequential_index hs (List.mem_map.mpr ⟨_, hkd, rfl⟩)
  obtain rfl : i = j := Option.some.inj (hi.symm.trans hj)
  exact ⟨x, s₁, s₂, place_get pairs.length entries (hkeys ▸ hn) k x (List.of_mem_zip hx).2 i hi
    (by simpa using hle), hb, hconv⟩

theorem table_unfolds (h : Heap) (a : Nat) (convert : Conversion Datum Value)
    (hc : Adds convert) (s s' : Issue) (v : Value)
    (hu : ∀ d s s' v, convert d s = (.ok v, s') → Unfolds h (Issued s s') d v)
    (hv : outwardTable convert (h.table a).pairs s = (.ok v, s')) :
    Unfolds h (Issued s s') (.table a) v := by
  have hn := (h.table a).pairs_nodup
  rcases outwardTable_ok convert _ hn s s' v hv with ⟨hs, entries, rfl, he⟩ | ⟨hs, members, rfl, hm⟩
  · apply Unfolds.list a _ hn hs (place_length _ _)
    intro k d i hkd hi
    obtain ⟨x, s₁, s₂, hget, hb, hconv⟩ := entries_placed hc hn hs he hkd hi
    rw [List.getD_eq_getElem?_getD, hget]
    exact unfolds_mono (issued_between hb) (hu d s₁ s₂ x hconv)
  · obtain ⟨hl, hz⟩ := outwardEntries_ok mapKey convert hc _ s s' members hm
    apply Unfolds.map a members hn hs hl (fun p hp => (hz p hp).1)
    intro p hp
    obtain ⟨-, s₁, s₂, hb, hconv⟩ := hz p hp
    exact unfolds_mono (issued_between hb) (hu _ s₁ s₂ _ hconv)

/-- What a conversion that succeeds answers is the datum written out. -/
theorem outwardWithin_unfolds (h : Heap) (fuel : Nat) (path : List Nat) (d : Datum) (s s' : Issue)
    (v : Value) (hv : outwardWithin h fuel path d s = (.ok v, s')) : Unfolds h (Issued s s') d v := by
  induction fuel generalizing path d s s' v with
  | zero =>
    by_cases ht : ∃ a, d = .table a
    · obtain ⟨a, rfl⟩ := ht
      simp [outwardWithin] at hv
    · exact leaf_unfolds h 0 path d s s' v (fun a ha => ht ⟨a, ha⟩) hv
  | succ fuel ih =>
    by_cases ht : ∃ a, d = .table a
    · obtain ⟨a, rfl⟩ := ht
      simp only [outwardWithin] at hv
      split at hv
      · simp at hv
      · exact table_unfolds h a _ (outwardWithin_adds h fuel (a :: path)) s s' v
          (fun d s s' v => ih (a :: path) d s s' v) hv
    · exact leaf_unfolds h (fuel + 1) path d s s' v (fun a ha => ht ⟨a, ha⟩) hv

structure Enclosing (h : Heap) (path : List Nat) : Prop where
  once : path.Nodup
  there : ∀ a ∈ path, a < h.tables.size

theorem enclosing_length {h : Heap} {path : List Nat} (hp : Enclosing h path) :
    path.length ≤ h.tables.size := by
  have hs : path ⊆ List.range h.tables.size := fun a ha => List.mem_range.mpr (hp.there a ha)
  simpa using (hp.once.subperm hs).length_le

theorem pairs_there {h : Heap} {a : Nat} {e : Datum × Datum} (he : e ∈ (h.table a).pairs) :
    a < h.tables.size := by
  by_contra ha
  have hnone : h.tables[a]? = none := Array.getElem?_eq_none (by omega)
  simp [Heap.table, Array.getD_eq_getD_getElem?, hnone, Table.empty, Table.sized, Table.pairs,
    Table.itemPairs, Table.entryPairs] at he

theorem enclosing_cons {h : Heap} {path : List Nat} {a : Nat} {e : Datum × Datum}
    (hp : Enclosing h path) (ha : a ∉ path) (he : e ∈ (h.table a).pairs) : Enclosing h (a :: path) where
  once := List.nodup_cons.mpr ⟨ha, hp.once⟩
  there b hb := by
    rcases List.mem_cons.mp hb with rfl | hb
    · exact pairs_there he
    · exact hp.there b hb

theorem enclosing_nil (h : Heap) : Enclosing h [] := ⟨List.nodup_nil, by simp⟩

/-- A conversion has fuel for every table that it can still meet, and meets none of those around it. -/
structure Clear (h : Heap) (fuel : Nat) (path : List Nat) (d : Datum) : Prop where
  enclosing : Enclosing h path
  enough : h.tables.size + 1 ≤ fuel + path.length
  apart : ∀ a ∈ path, ¬ Reaches h d (.table a)

theorem clear_zero {h : Heap} {path : List Nat} {d : Datum} : ¬ Clear h 0 path d := by
  intro hw
  have hl := enclosing_length hw.enclosing
  have he := hw.enough
  omega

theorem clear_start (h : Heap) (d : Datum) : Clear h (h.tables.size + 1) [] d :=
  ⟨enclosing_nil h, by simp, by simp⟩

theorem clear_entry {h : Heap} {fuel : Nat} {path : List Nat} {a : Nat} {e : Datum × Datum}
    (hw : Clear h (fuel + 1) path (.table a)) (hc : Crosses h (.table a))
    (he : e ∈ (h.table a).pairs) : Clear h fuel (a :: path) e.2 where
  enclosing := enclosing_cons hw.enclosing (fun ha => hw.apart a ha .here) he
  enough := by
    have := hw.enough
    simp only [List.length_cons]
    omega
  apart b hb hr := by
    rcases List.mem_cons.mp hb with rfl | hb
    · exact hc.unlooped b .here ⟨e.1, e.2, he, hr⟩
    · exact hw.apart b hb (reaches_head he hr)

theorem outwardWithin_open {h : Heap} {fuel : Nat} {path : List Nat} {a : Nat} {s : Issue}
    (hw : Clear h (fuel + 1) path (.table a)) :
    outwardWithin h (fuel + 1) path (.table a) s =
      outwardTable (outwardWithin h fuel (a :: path)) (h.table a).pairs s := by
  have ha : a ∉ path := fun hmem => hw.apart a hmem .here
  simp only [outwardWithin, List.contains_iff_mem, if_neg ha]

theorem outwardTable_succeeds (convert : Conversion Datum Value) (pairs : List (Datum × Datum))
    (s : Issue) (hk : ∀ e ∈ pairs, KeyCrosses e.1)
    (hd : ∀ e ∈ pairs, ∀ s, ∃ v s', convert e.2 s = (.ok v, s')) :
    ∃ v s', outwardTable convert pairs s = (.ok v, s') := by
  unfold outwardTable
  rw [outwardItems_entries, outwardMembers_entries]
  cases sequenceLength? (pairs.map (·.1)) with
  | some size =>
    obtain ⟨entries, s', he⟩ := outwardEntries_succeeds .ok convert pairs s (fun e _ => ⟨e.1, rfl⟩) hd
    exact ⟨.array (place size entries), s', by simp only [he]⟩
  | none =>
    obtain ⟨members, s', hm⟩ := outwardEntries_succeeds mapKey convert pairs s
      (fun e he => (mapKey_ok_iff e.1).mpr (hk e he)) hd
    exact ⟨.map (Dict.ofList members), s', by simp only [hm]⟩

theorem leaf_succeeds (h : Heap) (fuel : Nat) (path : List Nat) (d : Datum) (s : Issue)
    (hd : ∀ a, d ≠ .table a) (hc : DatumCrosses d) :
    ∃ v s', outwardWithin h fuel path d s = (.ok v, s') := by
  rw [outwardWithin_leaf h fuel path d s hd]
  cases d with
  | table a => exact absurd rfl (hd a)
  | string t =>
    have ht := (textOf_iff t (String.fromUTF8 t hc)).mpr rfl
    exact ⟨.string (String.fromUTF8 t hc), s, by simp only [outwardWithin, ht, Except.map]⟩
  | thread _ => exact hc.elim
  | userdata _ => exact hc.elim
  | failure _ _ => exact hc.elim
  | _ => simp [outwardWithin]

/-- What crosses does so with fuel for as many tables as are not yet around it. -/
theorem crosses_succeeds {h : Heap} (fuel : Nat) (path : List Nat) (d : Datum) (s : Issue)
    (hw : Clear h fuel path d) (hc : Crosses h d) :
    ∃ v s', outwardWithin h fuel path d s = (.ok v, s') := by
  induction fuel generalizing path d s with
  | zero => exact absurd hw clear_zero
  | succ fuel ih =>
    by_cases ht : ∃ a, d = .table a
    · obtain ⟨a, rfl⟩ := ht
      rw [outwardWithin_open hw]
      apply outwardTable_succeeds
      · exact fun e he => hc.keys a e.1 e.2 .here he
      · exact fun e he s => ih (a :: path) e.2 s (clear_entry hw hc he) (crosses_entry hc he)
    · exact leaf_succeeds h _ path d s (fun a ha => ht ⟨a, ha⟩) (hc.data d .here)

theorem textOf_error {t : ByteArray} {e : ScriptError} (h : textOf t = .error e) :
    e.kind = .marshal := by
  unfold textOf at h
  split at h
  · simp at h
  · obtain rfl := Except.error.inj h
    rfl

theorem leaf_error (h : Heap) (fuel : Nat) (path : List Nat) (d : Datum) (s s' : Issue)
    (e : ScriptError) (hd : ∀ a, d ≠ .table a)
    (he : outwardWithin h fuel path d s = (.error e, s')) : e.kind = .marshal := by
  rw [outwardWithin_leaf h fuel path d s hd] at he
  cases d with
  | table a => exact absurd rfl (hd a)
  | string t =>
    simp only [outwardWithin, Prod.mk.injEq] at he
    cases ht : textOf t with
    | ok text => simp [ht, Except.map] at he
    | error e' =>
      rw [ht] at he
      obtain rfl := Except.error.inj he.1
      exact textOf_error ht
  | thread n =>
    obtain rfl := Except.error.inj (Prod.mk.inj he).1
    rfl
  | userdata n =>
    obtain rfl := Except.error.inj (Prod.mk.inj he).1
    rfl
  | failure n f =>
    obtain rfl := Except.error.inj (Prod.mk.inj he).1
    rfl
  | _ => simp [outwardWithin] at he

theorem outwardTable_error (convert : Conversion Datum Value) (pairs : List (Datum × Datum))
    (s s' : Issue) (e : ScriptError)
    (hd : ∀ d s s' e, convert d s = (.error e, s') → e.kind = .marshal)
    (he : outwardTable convert pairs s = (.error e, s')) : e.kind = .marshal := by
  simp only [outwardTable, outwardItems_entries, outwardMembers_entries] at he
  split at he
  · split at he
    · simp at he
    · next e' s₁ hentries =>
      obtain rfl := Except.error.inj (Prod.mk.inj he).1
      exact outwardEntries_error .ok convert (·.kind = .marshal) pairs s s₁ e' (by simp)
        (fun x _ => hd x.2) hentries
  · split at he
    · simp at he
    · next e' s₁ hentries =>
      obtain rfl := Except.error.inj (Prod.mk.inj he).1
      exact outwardEntries_error mapKey convert (·.kind = .marshal) pairs s s₁ e'
        (fun x _ => mapKey_error x.1) (fun x _ => hd x.2) hentries

/-- Whatever fails, fails as something that does not cross. -/
theorem outwardWithin_error (h : Heap) (fuel : Nat) (path : List Nat) (d : Datum) (s s' : Issue)
    (e : ScriptError) (he : outwardWithin h fuel path d s = (.error e, s')) : e.kind = .marshal := by
  induction fuel generalizing path d s s' e with
  | zero =>
    by_cases ht : ∃ a, d = .table a
    · obtain ⟨a, rfl⟩ := ht
      simp only [outwardWithin] at he
      obtain rfl := Except.error.inj (Prod.mk.inj he).1
      rfl
    · exact leaf_error h 0 path d s s' e (fun a ha => ht ⟨a, ha⟩) he
  | succ fuel ih =>
    by_cases ht : ∃ a, d = .table a
    · obtain ⟨a, rfl⟩ := ht
      simp only [outwardWithin] at he
      split at he
      · obtain rfl := Except.error.inj (Prod.mk.inj he).1
        rfl
      · exact outwardTable_error _ _ s s' e (fun d s s' e => ih (a :: path) d s s' e) he
    · exact leaf_error h (fuel + 1) path d s s' e (fun a ha => ht ⟨a, ha⟩) he

theorem outwardTable_congr (convert convert' : Conversion Datum Value)
    (pairs : List (Datum × Datum)) (s : Issue)
    (hc : ∀ e ∈ pairs, ∀ s, convert e.2 s = convert' e.2 s) :
    outwardTable convert pairs s = outwardTable convert' pairs s := by
  have hentries : ∀ {κ : Type} (readKey : Datum → Except ScriptError κ) (s : Issue),
      outwardEntries readKey convert pairs s = outwardEntries readKey convert' pairs s := by
    intro κ readKey s
    induction pairs generalizing s with
    | nil => rfl
    | cons e rest ih =>
      have hrest := ih (fun x hx => hc x (by simp [hx]))
      simp only [outwardEntries, hc e (by simp), hrest]
  simp only [outwardTable, outwardItems_entries, outwardMembers_entries, hentries]

/-- One more unit of fuel than there are tables changes nothing. -/
theorem outwardWithin_fuel {h : Heap} (fuel : Nat) (path : List Nat) (d : Datum) (s : Issue)
    (hp : Enclosing h path) (hf : h.tables.size + 1 ≤ fuel + path.length) :
    outwardWithin h (fuel + 1) path d s = outwardWithin h fuel path d s := by
  induction fuel generalizing path d s with
  | zero =>
    have := enclosing_length hp
    omega
  | succ fuel ih =>
    by_cases ht : ∃ a, d = .table a
    · obtain ⟨a, rfl⟩ := ht
      simp only [outwardWithin, List.contains_iff_mem]
      split
      · rfl
      · next ha =>
        apply outwardTable_congr
        intro e he s
        exact ih (a :: path) e.2 s (enclosing_cons hp ha he) (by simp only [List.length_cons]; omega)
    · have hd : ∀ a, d ≠ .table a := fun a ha => ht ⟨a, ha⟩
      rw [outwardWithin_leaf h _ path d s hd, outwardWithin_leaf h (fuel + 1) path d s hd]

theorem outward_succeeds {h : Heap} {d : Datum} (hc : Crosses h d) (s : Issue) :
    ∃ v s', outward h d s = (.ok v, s') :=
  crosses_succeeds _ [] d s (clear_start h d) hc

def sharedHeap : Heap :=
  { (default : Heap) with
    tables := #[Table.empty.setItems [.function 7],
      ((Table.sized 0 2).set (.text "a") (.table 0)).set (.text "b") (.table 0)]
    there := Nat.two_pos }

-- a shared table is written out at both places, and its function takes two slots
example : outward sharedHeap (.table 1) ⟨⟨0, 0⟩, 1, []⟩ =
    (.ok (.map [("a", .array [.callable ⟨⟨0, 0⟩, 1⟩]), ("b", .array [.callable ⟨⟨0, 0⟩, 2⟩])]),
      ⟨⟨0, 0⟩, 3, [(2, .function 7), (1, .function 7)]⟩) := by
  rfl

end ScriptHost.Crossing
