import Mathlib.Algebra.Group.Nat.Defs
import Mathlib.Data.List.Nodup
import Mathlib.Data.List.Perm.Subperm
import ScriptHost.Crossing

/-!
# Tables that are lists

A table crosses as a list when its keys are the integers from one to their number.  Only their number
and their maximum are compared; for distinct keys a count of the positive integers up to the maximum
makes this exact, and every slot of the list is then written once.
-/

set_option autoImplicit false

namespace ScriptHost.Crossing
open Lua

theorem index_iff (k : Datum) (i : Nat) :
    Table.index? k = some i ↔ ∃ n : Int64, k = .int n ∧ n.toInt = i ∧ 1 ≤ i := by
  cases k with
  | int n =>
    simp only [Table.index?, Datum.int.injEq, exists_eq_left']
    split
    · simp only [Option.some.injEq]
      omega
    · simp only [reduceCtorEq, false_iff]
      omega
  | _ => simp [Table.index?]

theorem index_injective {k l : Datum} {i : Nat} (hk : Table.index? k = some i)
    (hl : Table.index? l = some i) : k = l := by
  obtain ⟨m, rfl, hm, -⟩ := (index_iff k i).mp hk
  obtain ⟨n, rfl, hn, -⟩ := (index_iff l i).mp hl
  rw [Int64.toInt_inj.mp (hm.trans hn.symm)]

def Sequential (keys : List Datum) : Prop :=
  ∀ k ∈ keys, ∃ i, Table.index? k = some i ∧ i ≤ keys.length

theorem max_upper (is : List Nat) (m : Nat) : m ≤ is.foldl max m ∧ ∀ i ∈ is, i ≤ is.foldl max m := by
  induction is generalizing m with
  | nil => simp
  | cons j is ih =>
    have h := ih (max m j)
    refine ⟨?_, ?_⟩
    · have := h.1
      simp only [List.foldl_cons]
      omega
    · intro i hi
      rcases List.mem_cons.mp hi with rfl | hi
      · have := h.1
        simp only [List.foldl_cons]
        omega
      · exact h.2 i hi

theorem max_least (is : List Nat) (m n : Nat) (hm : m ≤ n) (hi : ∀ i ∈ is, i ≤ n) :
    is.foldl max m ≤ n := by
  induction is generalizing m with
  | nil => exact hm
  | cons j is ih =>
    have hj := hi j (by simp)
    exact ih (max m j) (by omega) (fun i h => hi i (by simp [h]))

/-- Distinct positive numbers are at most as many as their maximum. -/
theorem length_max (is : List Nat) (hd : is.Nodup) (hp : ∀ i ∈ is, 1 ≤ i) :
    is.length ≤ is.foldl max 0 := by
  have hs : is ⊆ List.range' 1 (is.foldl max 0) := by
    intro i hi
    have h1 := hp i hi
    have h2 := (max_upper is 0).2 i hi
    simp only [List.mem_range'_1]
    omega
  simpa using (List.Nodup.subperm hd hs).length_le

theorem indices_nodup (keys : List Datum) (hk : keys.Nodup) :
    (keys.filterMap Table.index?).Nodup :=
  hk.filterMap fun _ _ _ hi hj => index_injective hi hj

/-- A table of distinct keys counts as a list exactly when they are the integers from one to their
number; where they start and how they are ordered does not matter. -/
theorem sequenceLength_iff (keys : List Datum) (hk : keys.Nodup) (n : Nat) :
    sequenceLength? keys = some n ↔ keys.length = n ∧ Sequential keys := by
  have hm := max_upper (keys.filterMap Table.index?) 0
  unfold sequenceLength?
  simp only
  split
  · next h =>
    have hall := List.filterMap_length_eq_length.mp h.1
    simp only [Option.some.injEq]
    refine ⟨fun hn => ⟨hn, ?_⟩, fun hn => hn.1⟩
    intro k hmem
    obtain ⟨i, hi⟩ := Option.isSome_iff_exists.mp (hall k hmem)
    refine ⟨i, hi, ?_⟩
    have := hm.2 i (List.mem_filterMap.mpr ⟨k, hmem, hi⟩)
    omega
  · next h =>
    simp only [reduceCtorEq, false_iff]
    rintro ⟨rfl, hs⟩
    apply h
    have hl : (keys.filterMap Table.index?).length = keys.length := by
      apply List.filterMap_length_eq_length.mpr
      intro k hmem
      obtain ⟨i, hi, -⟩ := hs k hmem
      simp [hi]
    refine ⟨hl, ?_⟩
    have hge := length_max _ (indices_nodup keys hk) (by
      intro i hi
      obtain ⟨k, -, hi⟩ := List.mem_filterMap.mp hi
      obtain ⟨_, _, _, hi⟩ := (index_iff k i).mp hi
      exact hi)
    have hle := max_least (keys.filterMap Table.index?) 0 keys.length (Nat.zero_le _) (by
      intro i hi
      obtain ⟨k, hmem, hi⟩ := List.mem_filterMap.mp hi
      obtain ⟨j, hj, hb⟩ := hs k hmem
      obtain rfl := Option.some.inj (hi.symm.trans hj)
      exact hb)
    omega

/-- The indices of the keys are the numbers from one to their number, in some order. -/
theorem indices_perm (keys : List Datum) (hk : keys.Nodup) (hs : Sequential keys) :
    (keys.filterMap Table.index?).Perm (List.range' 1 keys.length) := by
  have hl : (keys.filterMap Table.index?).length = keys.length := by
    apply List.filterMap_length_eq_length.mpr
    intro k hmem
    obtain ⟨j, hj, -⟩ := hs k hmem
    simp [hj]
  have hsub : keys.filterMap Table.index? ⊆ List.range' 1 keys.length := by
    intro j hj
    obtain ⟨k, hmem, hj⟩ := List.mem_filterMap.mp hj
    obtain ⟨_, _, _, h1⟩ := (index_iff k j).mp hj
    obtain ⟨j', hj', hb⟩ := hs k hmem
    obtain rfl := Option.some.inj (hj.symm.trans hj')
    simp only [List.mem_range'_1]
    omega
  exact ((indices_nodup keys hk).subperm hsub).perm_of_length_le (by simp [hl])

/-- Every index from one to the number of keys is that of a key. -/
theorem sequential_covers (keys : List Datum) (hk : keys.Nodup) (hs : Sequential keys) (i : Nat)
    (h1 : 1 ≤ i) (hi : i ≤ keys.length) : ∃ k ∈ keys, Table.index? k = some i := by
  have hm : i ∈ keys.filterMap Table.index? :=
    (indices_perm keys hk hs).mem_iff.mpr (by simp only [List.mem_range'_1]; omega)
  obtain ⟨k, hmem, hk⟩ := List.mem_filterMap.mp hm
  exact ⟨k, hmem, hk⟩

/-- There are as many keys at most as there are positive integers of 64 bits. -/
theorem sequential_small {keys : List Datum} (hk : keys.Nodup) (hs : Sequential keys) :
    keys.length < 2 ^ 63 := by
  by_contra hl
  obtain ⟨k, -, hi⟩ := sequential_covers keys hk hs (2 ^ 63) (by omega) (by omega)
  obtain ⟨n, -, hn, -⟩ := (index_iff k _).mp hi
  have hlt := n.toInt_lt
  omega

def putAt (items : Array Value) (e : Datum × Value) : Array Value :=
  match Table.index? e.1 with
  | some i => items.setIfInBounds (i - 1) e.2
  | none => items

theorem place_fold (size : Nat) (entries : List (Datum × Value)) :
    place size entries = (entries.foldl putAt (Array.replicate size .nil)).toList := rfl

@[simp] theorem putAt_size (items : Array Value) (e : Datum × Value) : (putAt items e).size = items.size := by
  unfold putAt
  split <;> simp

theorem puts_size (items : Array Value) (entries : List (Datum × Value)) :
    (entries.foldl putAt items).size = items.size := by
  induction entries generalizing items with
  | nil => rfl
  | cons e rest ih => simp [List.foldl_cons, ih]

@[simp] theorem place_length (size : Nat) (entries : List (Datum × Value)) :
    (place size entries).length = size := by
  simp [place_fold, puts_size]

theorem puts_frame (items : Array Value) (entries : List (Datum × Value)) (i : Nat) (h1 : 1 ≤ i)
    (hi : ∀ e ∈ entries, Table.index? e.1 ≠ some i) :
    (entries.foldl putAt items)[i - 1]? = items[i - 1]? := by
  induction entries generalizing items with
  | nil => rfl
  | cons e rest ih =>
    rw [List.foldl_cons, ih _ (fun x hx => hi x (by simp [hx]))]
    unfold putAt
    split
    · next j hj =>
      have hne : i ≠ j := fun h => hi e (by simp) (h ▸ hj)
      obtain ⟨_, _, _, hj1⟩ := (index_iff _ _).mp hj
      exact Array.getElem?_setIfInBounds_ne (by omega)
    · rfl

/-- Of values with distinct keys each stands at its index. -/
theorem place_get (size : Nat) (entries : List (Datum × Value)) (hk : (entries.map Prod.fst).Nodup)
    (k : Datum) (v : Value) (hm : (k, v) ∈ entries) (i : Nat) (hi : Table.index? k = some i)
    (hs : i ≤ size) : (place size entries)[i - 1]? = some v := by
  obtain ⟨_, _, _, h1⟩ := (index_iff _ _).mp hi
  have hput : ∀ items : Array Value, items.size = size →
      (entries.foldl putAt items)[i - 1]? = some v := by
    induction entries with
    | nil => simp at hm
    | cons e rest ih =>
      intro items hsize
      obtain ⟨hek, hrest⟩ := List.nodup_cons.mp hk
      rw [List.foldl_cons]
      rcases List.mem_cons.mp hm with rfl | hm
      · rw [puts_frame _ _ _ h1]
        · simp only [putAt, hi]
          exact Array.getElem?_setIfInBounds_self_of_lt (by omega)
        · intro x hx hxi
          exact hek (List.mem_map.mpr ⟨x, hx, index_injective hxi hi⟩)
      · exact ih hrest hm _ ((putAt_size _ _).trans hsize)
  rw [place_fold, Array.getElem?_toList]
  exact hput _ (by simp)

end ScriptHost.Crossing
