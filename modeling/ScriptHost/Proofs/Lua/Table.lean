import Mathlib.Data.List.Nodup
import ScriptHost.Lua.Heap

/-!
# What tables hold

A table that was made with room for what it gets keeps it where it is put: integers from one on among
the items, any other keys in the order they come.  In any table a text is found where it was stored, also
when the table sizes itself anew for it.
-/

set_option autoImplicit false

namespace ScriptHost.Lua.Table

theorem position_int {size i : Nat} (h1 : 1 ≤ i) (hi : i ≤ size) (hs : size ≤ capacity) :
    position? size (.int (Int64.ofNat i)) = some (i - 1) := by
  have h := position_item (i := i - 1) (by omega) hs
  rwa [show i - 1 + 1 = i by omega] at h

theorem setInt_item (t : Table) (i : Nat) (d : Datum) (h1 : 1 ≤ i) (hi : i ≤ t.items.size) :
    t.setInt i d = t.putItem (i - 1) d := by
  simp only [setInt, set, position_int h1 hi t.small]

theorem position_zero (key : Datum) : position? 0 key = none := by
  cases key with
  | int n =>
    simp only [position?]
    rw [if_neg (by omega)]
  | _ => rfl

theorem hasEntry_absent {key : Datum} {entries : List (Datum × Datum)}
    (hk : key ∉ entries.map (·.1)) : hasEntry key entries = false := by
  rw [Bool.eq_false_iff, Ne, hasEntry_iff]
  exact hk

theorem addEntry_new (t : Table) (key value : Datum) (hp : position? t.items.size key = none)
    (hk : key ∉ t.entries.map (·.1)) (hform : key.key? = some key) :
    (t.addEntry key value).items = t.items ∧
      (t.addEntry key value).entries = t.entries ++ [(key, value)] ∧
      (t.addEntry key value).room = t.room := by
  rw [addEntry, dif_pos ⟨hp, hasEntry_absent hk, hform⟩]
  exact ⟨rfl, rfl, rfl⟩

theorem set_entry (t : Table) (key value : Datum) (ht : t.items = #[])
    (hk : key ∉ t.entries.map (·.1)) (hr : t.entries.length < t.room) :
    t.set key value = if value.isNil then t else t.addEntry key value := by
  have hp : position? t.items.size key = none := by simp [ht, position_zero]
  simp [set, hp, hasEntry_absent hk, hr]

theorem roomFor_le (n : Nat) : n ≤ roomFor n := by
  unfold roomFor
  split
  · omega
  · split
    · omega
    · have h := Nat.lt_log2_self (n := n - 1)
      simp only [Nat.pow_eq]
      omega

def fill (items : Array Datum) (i : Nat) : List Datum → Array Datum
  | [] => items
  | d :: ds => fill (items.setIfInBounds i d) (i + 1) ds

@[simp] theorem fill_size (items : Array Datum) (i : Nat) (ds : List Datum) :
    (fill items i ds).size = items.size := by
  induction ds generalizing items i with
  | nil => rfl
  | cons d ds ih => simp [fill, ih]

theorem fill_before (items : Array Datum) (i j : Nat) (ds : List Datum) (hj : j < i) :
    (fill items i ds)[j]? = items[j]? := by
  induction ds generalizing items i with
  | nil => rfl
  | cons d ds ih =>
    rw [fill, ih _ (i + 1) (by omega)]
    exact Array.getElem?_setIfInBounds_ne (by omega)

theorem fill_get (items : Array Datum) (i j : Nat) (ds : List Datum)
    (hl : i + ds.length ≤ items.size) (hj : j < ds.length) :
    (fill items i ds)[i + j]? = ds[j]? := by
  induction ds generalizing items i j with
  | nil => simp at hj
  | cons d ds ih =>
    simp only [List.length_cons] at hl hj
    cases j with
    | zero =>
      rw [fill, Nat.add_zero, fill_before _ _ _ _ (by omega)]
      simpa using Array.getElem?_setIfInBounds_self_of_lt (by omega)
    | succ j =>
      rw [fill, show i + (j + 1) = i + 1 + j by omega, ih _ (i + 1) j (by simp; omega) (by omega)]
      rfl

theorem fill_all (ds : List Datum) : fill (Array.replicate ds.length .nil) 0 ds = ds.toArray := by
  apply Array.ext_getElem?
  intro j
  by_cases hj : j < ds.length
  · have h := fill_get (Array.replicate ds.length .nil) 0 j ds (by simp) hj
    simpa using h
  · rw [Array.getElem?_eq_none (by simp; omega), Array.getElem?_eq_none (by simp; omega)]

def present (i : Nat) : List Datum → List (Nat × Datum)
  | [] => []
  | d :: ds => if d.isNil then present (i + 1) ds else (i, d) :: present (i + 1) ds

theorem present_eq (i : Nat) (ds : List Datum) :
    ((List.range ds.length).map fun j => (i + j, ds.getD j .nil)).filter (fun e => !e.2.isNil)
      = present i ds := by
  induction ds generalizing i with
  | nil => rfl
  | cons d ds ih =>
    have hshift : (List.range ds.length).map (fun j => (i + (j + 1), (d :: ds).getD (j + 1) .nil)) =
        (List.range ds.length).map fun j => (i + 1 + j, ds.getD j .nil) := by
      apply List.map_congr_left
      intro j _
      rw [List.getD_cons_succ, show i + (j + 1) = i + 1 + j by omega]
    rw [List.length_cons, List.range_succ_eq_map, List.map_cons, List.map_map]
    rw [show (fun j => (i + j, (d :: ds).getD j .nil)) ∘ Nat.succ =
      fun j => (i + (j + 1), (d :: ds).getD (j + 1) .nil) from rfl, hshift]
    simp only [List.filter_cons, ih, present]
    cases d <;> simp [Datum.isNil]

/-- What a table of a list of items holds. -/
theorem pairs_items (t : Table) (ds : List Datum) (hi : t.items = ds.toArray) (he : t.entries = []) :
    t.pairs = (present 1 ds).map fun e => (.int (Int64.ofNat e.1), e.2) := by
  have hget : ∀ j, (Datum.int (Int64.ofNat (j + 1)), ds.toArray.getD j .nil) =
      (Datum.int (Int64.ofNat (1 + j)), ds.getD j .nil) := by
    intro j
    rw [Nat.add_comm 1 j, Array.getD_eq_getD_getElem?, List.getD_eq_getElem?_getD,
      List.getElem?_toArray]
  rw [← present_eq 1 ds]
  simp only [pairs, hi, he, itemPairs, entryPairs, List.filter_nil, List.append_nil,
    List.size_toArray, hget, List.filter_map, List.map_map]
  rfl

theorem pairs_entries (t : Table) (hi : t.items = #[]) (he : ∀ e ∈ t.entries, e.2.isNil = false) :
    t.pairs = t.entries := by
  simp only [pairs, hi, itemPairs, entryPairs, Array.size_empty, List.range_zero, List.map_nil,
    List.filter_nil, List.nil_append, List.filter_eq_self]
  intro e hmem
  simp [he e hmem]

theorem pairs_present (t : Table) {e : Datum × Datum} (he : e ∈ t.pairs) : e.2.isNil = false := by
  rcases List.mem_append.mp he with he | he
  · simpa using (List.mem_filter.mp he).2
  · simpa using (List.mem_filter.mp he).2

theorem lookup_absent (key : Datum) (entries : List (Datum × Datum))
    (hk : key ∉ entries.map (·.1)) : lookup key entries = .nil := by
  induction entries with
  | nil => rfl
  | cons e rest ih =>
    simp only [List.map_cons, List.mem_cons, not_or] at hk
    rw [lookup, if_neg (Ne.symm hk.1), ih hk.2]

theorem lookup_append (key value : Datum) (entries : List (Datum × Datum))
    (hk : key ∉ entries.map (·.1)) : lookup key (entries ++ [(key, value)]) = value := by
  induction entries with
  | nil => simp [lookup]
  | cons e rest ih =>
    simp only [List.map_cons, List.mem_cons, not_or] at hk
    rw [List.cons_append, lookup, if_neg (Ne.symm hk.1), ih hk.2]

theorem lookup_replace (key value : Datum) (entries : List (Datum × Datum))
    (hk : key ∈ entries.map (·.1)) : lookup key (replace key value entries) = value := by
  induction entries with
  | nil => simp at hk
  | cons e rest ih =>
    obtain ⟨k, v⟩ := e
    simp only [replace]
    split
    · next h => rw [lookup, if_pos h]
    · next h =>
      rw [lookup, if_neg h, ih]
      simpa [Ne.symm h] using hk

/-- A text that is no entry is none after the table has sized itself anew. -/
theorem resized_absent (t : Table) (text : ByteArray) (key : Datum)
    (hk : Datum.string text ∉ t.entries.map (·.1)) :
    Datum.string text ∉ (t.resized key).entries.map (·.1) := by
  intro hmem
  obtain ⟨e, he, htext⟩ := List.mem_map.mp hmem
  have hpair : e ∈ t.pairs := List.mem_of_mem_filter he
  rcases List.mem_append.mp hpair with hitem | hentry
  · obtain ⟨i, -, hkey⟩ := itemPairs_key hitem
    simp [hkey] at htext
  · exact hk (List.mem_map.mpr ⟨e, List.mem_of_mem_filter hentry, htext⟩)

@[simp] theorem get_set_text (t : Table) (name : String) (value : Datum) :
    (t.set (.text name) value).get (.text name) = value := by
  have hp : ∀ size, position? size (.text name) = none := fun _ => rfl
  by_cases hk : Datum.text name ∈ t.entries.map (·.1)
  · have he := (hasEntry_iff _ _).mpr hk
    simp only [set, hp, he, if_true, get]
    exact lookup_replace _ _ _ hk
  · simp only [set, hp, hasEntry_absent hk, Bool.false_eq_true, if_false]
    have hadd : ∀ u : Table, Datum.text name ∉ u.entries.map (·.1) →
        (u.addEntry (.text name) value).get (.text name) = value := by
      intro u hu
      simp only [get, hp, (addEntry_new u _ value (hp _) hu rfl).2.1]
      exact lookup_append _ _ _ hu
    by_cases hnil : value.isNil = true
    · rw [if_pos hnil]
      simp only [get, hp, lookup_absent _ _ hk]
      cases value <;> simp_all [Datum.isNil]
    · rw [if_neg hnil]
      by_cases hroom : t.entries.length < t.room
      · rw [if_pos hroom]
        exact hadd t hk
      · rw [if_neg hroom]
        simp only [store, hp]
        exact hadd _ (resized_absent t _ _ hk)

theorem position_some {size i : Nat} {k : Datum} (h : position? size k = some i) :
    i < size ∧ k = .int (Int64.ofNat (i + 1)) := by
  cases k with
  | int n =>
    simp only [position?] at h
    split at h
    · next hn =>
      have hi : n.toInt.toNat - 1 = i := Option.some.inj h
      have hlt := n.toInt_lt
      refine ⟨by omega, ?_⟩
      rw [Datum.int.injEq, ← Int64.toInt_inj, Int64.toInt_ofNat_of_lt (by omega)]
      omega
    · cases h
  | _ => cases h

theorem lookup_mem {key value : Datum} {entries : List (Datum × Datum)}
    (hn : (entries.map (·.1)).Nodup) (h : (key, value) ∈ entries) : lookup key entries = value := by
  induction entries with
  | nil => cases h
  | cons e rest ih =>
    obtain ⟨hnew, hrest⟩ := List.nodup_cons.mp hn
    rw [lookup]
    rcases List.mem_cons.mp h with rfl | hmem
    · rw [if_pos rfl]
    · have hother : e.1 ≠ key := by
        rintro rfl
        exact hnew (List.mem_map.mpr ⟨_, hmem, rfl⟩)
      rw [if_neg hother]
      exact ih hrest hmem

theorem mem_of_lookup {key : Datum} {entries : List (Datum × Datum)}
    (h : (lookup key entries).isNil = false) : (key, lookup key entries) ∈ entries := by
  induction entries with
  | nil => cases h
  | cons e rest ih =>
    rw [lookup] at h ⊢
    by_cases hkey : e.1 = key
    · rw [if_pos hkey, ← hkey]
      exact List.mem_cons_self
    · rw [if_neg hkey] at h ⊢
      exact List.mem_cons_of_mem _ (ih h)

/-- A table answers for a key what it holds under it. -/
theorem get_of_pairs {t : Table} {k d : Datum} (h : (k, d) ∈ t.pairs) : t.get k = d := by
  rcases List.mem_append.mp h with hitem | hentry
  · obtain ⟨i, hi, heq⟩ := List.mem_map.mp (List.mem_filter.mp hitem).1
    obtain ⟨rfl, rfl⟩ := Prod.mk.inj heq
    simp only [get, position_item (List.mem_range.mp hi) t.small]
  · have hmem := (List.mem_filter.mp hentry).1
    have hkey : k ∈ t.entries.map (·.1) := List.mem_map.mpr ⟨_, hmem, rfl⟩
    simp only [get, t.apart k hkey]
    exact lookup_mem t.once hmem

theorem pairs_of_get {t : Table} {k : Datum} (h : (t.get k).isNil = false) : (k, t.get k) ∈ t.pairs := by
  have hpresent : (!(t.get k).isNil) = true := by rw [h]; rfl
  cases hp : position? t.items.size k with
  | some i =>
    obtain ⟨hi, hkey⟩ := position_some hp
    have hget : t.get k = t.items.getD i .nil := by simp only [get, hp]
    refine List.mem_append_left _ (List.mem_filter.mpr ⟨?_, hpresent⟩)
    exact List.mem_map.mpr ⟨i, List.mem_range.mpr hi, by rw [hkey.symm, hget]⟩
  | none =>
    have hget : t.get k = lookup k t.entries := by simp only [get, hp]
    refine List.mem_append_right _ (List.mem_filter.mpr ⟨?_, hpresent⟩)
    rw [hget] at h ⊢
    exact mem_of_lookup h

/-- And nil for any other. -/
theorem get_absent {t : Table} {k : Datum} (h : k ∉ t.pairs.map (·.1)) : t.get k = .nil := by
  cases hget : t.get k with
  | nil => rfl
  | _ =>
    refine absurd (List.mem_map.mpr ⟨_, pairs_of_get (t := t) (k := k) ?_, rfl⟩) h
    rw [hget]
    rfl

end ScriptHost.Lua.Table
