import ScriptHost.Lua.Datum

/-!
# Tables

A table keeps the values of the keys `1` to some size side by side and everything else as a list of
entries with room for a power of two.  A key that finds no room makes the table size itself anew: the
largest power of two more than half of whose keys are in use becomes the new size.  What a table holds
is `Table.get`; its entries in order are `Table.pairs`, and a border of it is `Table.border`.
-/

set_option autoImplicit false

namespace ScriptHost.Lua

namespace Table

def capacity : Nat :=
  -- the most items, so that every item has its key
  Nat.pow 2 63 - 1

def roomFor (n : Nat) : Nat := if n = 0 then 0 else if n = 1 then 1 else Nat.pow 2 (Nat.log2 (n - 1) + 1)

def position? (size : Nat) : Datum → Option Nat
  | .int n => if 1 ≤ n.toInt ∧ n.toInt ≤ size then some (n.toInt.toNat - 1) else none
  | _ => none

def lookup (key : Datum) : List (Datum × Datum) → Datum
  | [] => .nil
  | (k, v) :: rest => if k = key then v else lookup key rest

def hasEntry (key : Datum) : List (Datum × Datum) → Bool
  | [] => false
  | (k, _) :: rest => k = key || hasEntry key rest

def replace (key value : Datum) : List (Datum × Datum) → List (Datum × Datum)
  | [] => []
  | (k, v) :: rest => if k = key then (k, value) :: rest else (k, v) :: replace key value rest

def itemPairs (items : Array Datum) : List (Datum × Datum) :=
  ((List.range items.size).map fun i => (Datum.int (Int64.ofNat (i + 1)), items.getD i .nil)).filter
    fun e => !e.2.isNil

def entryPairs (entries : List (Datum × Datum)) : List (Datum × Datum) :=
  entries.filter fun e => !e.2.isNil

def index? : Datum → Option Nat
  | .int n => if 1 ≤ n.toInt then some n.toInt.toNat else none
  | _ => none

def bestSize (used : List Nat) : Nat → Nat → Nat → Nat
  -- the largest power of two from `2^i` on more than half of whose numbers are among those given
  | 0, _, best => best
  | fuel + 1, i, best =>
    let size := Nat.pow 2 i
    if size / 2 < used.length then
      bestSize used fuel (i + 1) (if size / 2 < used.countP (· ≤ size) then size else best)
    else best

theorem hasEntry_iff (key : Datum) (entries : List (Datum × Datum)) :
    hasEntry key entries = true ↔ key ∈ entries.map (·.1) := by
  induction entries with
  | nil => simp [hasEntry]
  | cons e rest ih =>
    obtain ⟨k, v⟩ := e
    simp only [hasEntry, Bool.or_eq_true, decide_eq_true_eq, ih, List.map_cons, List.mem_cons,
      @eq_comm _ k key]

theorem replace_keys (key value : Datum) (entries : List (Datum × Datum)) :
    (replace key value entries).map (·.1) = entries.map (·.1) := by
  induction entries with
  | nil => rfl
  | cons e rest ih =>
    obtain ⟨k, v⟩ := e
    simp only [replace]
    by_cases hk : k = key
    · rw [if_pos hk]
      rfl
    · rw [if_neg hk, List.map_cons, List.map_cons, ih]

@[simp] theorem position_item {size i : Nat} (hi : i < size) (hs : size ≤ capacity) :
    position? size (.int (Int64.ofNat (i + 1))) = some i := by
  have hlt : i + 1 < 2 ^ 63 := by
    rw [show capacity = 2 ^ 63 - 1 from rfl] at hs
    omega
  have ht := Int64.toInt_ofNat_of_lt hlt
  simp only [position?, ht]
  rw [if_pos (by omega)]
  simp

theorem itemPairs_key {items : Array Datum} {e : Datum × Datum} (he : e ∈ itemPairs items) :
    ∃ i < items.size, e.1 = .int (Int64.ofNat (i + 1)) := by
  obtain ⟨i, hi, rfl⟩ := List.mem_map.mp (List.mem_filter.mp he).1
  exact ⟨i, List.mem_range.mp hi, rfl⟩

theorem itemPairs_nodup {items : Array Datum} (hs : items.size ≤ capacity) :
    ((itemPairs items).map (·.1)).Nodup := by
  refine List.Nodup.sublist (List.filter_sublist.map _) ?_
  rw [List.map_map]
  refine List.pairwise_map.mpr (List.nodup_range.imp_of_mem ?_)
  intro i j hi hj hne heq
  have hpos := congrArg (position? items.size) heq
  simp only [Function.comp_apply] at hpos
  rw [position_item (List.mem_range.mp hi) hs, position_item (List.mem_range.mp hj) hs] at hpos
  exact hne (Option.some.inj hpos)

theorem bestSize_le (used : List Nat) (fuel i best : Nat) (hi : i + fuel ≤ 63)
    (hb : best ≤ capacity) : bestSize used fuel i best ≤ capacity := by
  induction fuel generalizing i best with
  | zero => exact hb
  | succ fuel ih =>
    have hsize : Nat.pow 2 i ≤ capacity := by
      have hpow : 2 ^ i ≤ 2 ^ 62 := Nat.pow_le_pow_right Nat.two_pos (by omega)
      exact Nat.le_trans hpow (by decide)
    simp only [bestSize]
    by_cases hused : Nat.pow 2 i / 2 < used.length
    · rw [if_pos hused]
      apply ih _ _ (by omega)
      split
      · exact hsize
      · exact hb
    · rw [if_neg hused]
      exact hb

end Table

structure Table where
  -- the values of the keys `1` to the size, nil where there is none
  items : Array Datum
  -- the other keys in the order they came, with nil for those that were removed
  entries : List (Datum × Datum)
  room : Nat
  metatable : Option Nat
  small : items.size ≤ Table.capacity
  once : (entries.map (·.1)).Nodup
  apart : ∀ key ∈ entries.map (·.1), Table.position? items.size key = none
  keyed : ∀ key ∈ entries.map (·.1), key.key? = some key

namespace Table

def sized (items entries : Nat) : Table where
  items := Array.replicate (min items capacity) .nil
  entries := []
  room := roomFor entries
  metatable := none
  small := by
    rw [Array.size_replicate]
    exact Nat.min_le_right _ _
  once := List.nodup_nil
  apart _ hkey := absurd hkey List.not_mem_nil
  keyed _ hkey := absurd hkey List.not_mem_nil

def empty : Table := sized 0 0

instance : Inhabited Table := ⟨empty⟩

def get (t : Table) (key : Datum) : Datum :=
  match position? t.items.size key with
  | some i => t.items.getD i .nil
  | none => lookup key t.entries

def getInt (t : Table) (n : Nat) : Datum := t.get (.int (Int64.ofNat n))

def pairs (t : Table) : List (Datum × Datum) := itemPairs t.items ++ entryPairs t.entries

/-- A table has each of its keys once. -/
theorem pairs_nodup (t : Table) : (t.pairs.map (·.1)).Nodup := by
  have hentries : ((entryPairs t.entries).map (·.1)).Sublist (t.entries.map (·.1)) :=
    List.filter_sublist.map _
  rw [pairs, List.map_append, List.nodup_append]
  refine ⟨itemPairs_nodup t.small, t.once.sublist hentries, ?_⟩
  intro key hitem other hentry heq
  obtain ⟨e, he, rfl⟩ := List.mem_map.mp hitem
  obtain ⟨i, hi, hkey⟩ := itemPairs_key he
  have hnone := t.apart other (hentries.subset hentry)
  rw [← heq, hkey, position_item hi t.small] at hnone
  simp at hnone

/-- All keys of a table have the form of keys. -/
theorem pairs_keyed (t : Table) {e : Datum × Datum} (he : e ∈ t.pairs) : e.1.key? = some e.1 := by
  rcases List.mem_append.mp he with hitem | hentry
  · obtain ⟨i, -, hkey⟩ := itemPairs_key hitem
    rw [hkey]
    rfl
  · exact t.keyed e.1 (List.mem_map_of_mem (List.mem_filter.mp hentry).1)

def resized (t : Table) (key : Datum) : Table :=
  let held := t.pairs
  let used := (index? key).toList ++ held.filterMap fun e => index? e.1
  let size := bestSize used 63 0 0
  let rest := held.filter fun e => (position? size e.1).isNone
  let extra := if (position? size key).isNone then 1 else 0
  { items := (Array.range size).map fun i => t.getInt (i + 1)
    entries := rest
    room := roomFor (rest.length + extra)
    metatable := t.metatable
    small := by simpa using bestSize_le used 63 0 0 (Nat.le_refl _) (Nat.zero_le _)
    once := t.pairs_nodup.sublist (List.filter_sublist.map _)
    apart := by
      intro key hkey
      obtain ⟨e, he, rfl⟩ := List.mem_map.mp hkey
      simpa using (List.mem_filter.mp he).2
    keyed := by
      intro key hkey
      obtain ⟨e, he, rfl⟩ := List.mem_map.mp hkey
      exact t.pairs_keyed (List.mem_filter.mp he).1 }

def putItem (t : Table) (i : Nat) (value : Datum) : Table :=
  { t with
    items := t.items.setIfInBounds i value
    small := by simpa using t.small
    apart := by simpa using t.apart }

def putEntry (t : Table) (key value : Datum) : Table :=
  { t with
    entries := replace key value t.entries
    once := by simpa only [replace_keys] using t.once
    apart := by simpa only [replace_keys] using t.apart
    keyed := by simpa only [replace_keys] using t.keyed }

def addEntry (t : Table) (key value : Datum) : Table :=
  if h : position? t.items.size key = none ∧ hasEntry key t.entries = false ∧ key.key? = some key then
    { t with
      entries := t.entries ++ [(key, value)]
      once := by
        have hnew : key ∉ t.entries.map (·.1) := by simp [← hasEntry_iff, h.2.1]
        rw [List.map_append, List.nodup_append]
        refine ⟨t.once, List.nodup_cons.mpr ⟨List.not_mem_nil, List.nodup_nil⟩, ?_⟩
        rintro k hk _ (_ | ⟨_, ⟨⟩⟩) rfl
        exact hnew hk
      apart := by
        intro k hk
        rw [List.map_append, List.mem_append] at hk
        rcases hk with hk | hk
        · exact t.apart k hk
        · obtain rfl : k = key := by simpa using hk
          exact h.1
      keyed := by
        intro k hk
        rw [List.map_append, List.mem_append] at hk
        rcases hk with hk | hk
        · exact t.keyed k hk
        · obtain rfl : k = key := by simpa using hk
          exact h.2.2 }
  else t

def store (t : Table) (key value : Datum) : Table :=
  match position? t.items.size key with
  | some i => t.putItem i value
  | none => t.addEntry key value

def set (t : Table) (key value : Datum) : Table :=
  match position? t.items.size key with
  | some i => t.putItem i value
  | none =>
    if hasEntry key t.entries then t.putEntry key value
    else if value.isNil then t
    else if t.entries.length < t.room then t.addEntry key value
    else (t.resized key).store key value

def setItems (t : Table) (values : List Datum) : Table :=
  { t with
    items := (values.take capacity).toArray
    entries := t.entries.filter fun e => (position? (values.take capacity).length e.1).isNone
    small := by
      rw [List.size_toArray, List.length_take]
      exact Nat.min_le_left _ _
    once := t.once.sublist (List.filter_sublist.map _)
    apart := by
      intro key hkey
      obtain ⟨e, he, rfl⟩ := List.mem_map.mp hkey
      simpa using (List.mem_filter.mp he).2
    keyed := fun key hkey => t.keyed key ((List.filter_sublist.map _).subset hkey) }

def setInt (t : Table) (n : Nat) (value : Datum) : Table := t.set (.int (Int64.ofNat n)) value

def between (t : Table) : Nat → Nat → Nat → Nat
  -- between a key that is there (or zero) and one that is not, a key that is there and is followed
  -- by one that is not
  | 0, low, _ => low
  | fuel + 1, low, high =>
    if high - low ≤ 1 then low
    else
      let middle := (low + high) / 2
      if (t.getInt middle).isNil then between t fuel low middle else between t fuel middle high

def beyond (t : Table) : Nat → Nat → Nat
  | 0, low => low
  | fuel + 1, low =>
    if (t.getInt (2 * low)).isNil then t.between 64 low (2 * low) else beyond t fuel (2 * low)

def border (t : Table) : Nat :=
  let size := t.items.size
  if size ≠ 0 ∧ (t.getInt size).isNil then
    if 2 ≤ size ∧ !(t.getInt (size - 1)).isNil then size - 1 else t.between 64 0 size
  else if (t.getInt (size + 1)).isNil then size
  else if size = 0 then t.beyond 64 1
  else t.beyond 64 size

def firstItem (items : Array Datum) : Nat → Nat → Option (Datum × Datum)
  | 0, _ => none
  | fuel + 1, i =>
    if i < items.size then
      let v := items.getD i .nil
      if v.isNil then firstItem items fuel (i + 1) else some (.int (Int64.ofNat (i + 1)), v)
    else none

def afterEntry (key : Datum) : List (Datum × Datum) → Option (List (Datum × Datum))
  | [] => none
  | (k, _) :: rest => if k = key then some rest else afterEntry key rest

def firstFrom (t : Table) (i : Nat) : Option (Datum × Datum) :=
  match firstItem t.items (t.items.size - i) i with
  | some e => some e
  | none => t.entries.find? fun e => !e.2.isNil

def next? (t : Table) (key : Datum) : Option (Option (Datum × Datum)) :=
  -- nothing if the key is not known, and no pair at the end
  if key.isNil then some (t.firstFrom 0)
  else match position? t.items.size key with
    | some i => some (t.firstFrom (i + 1))
    | none => (afterEntry key t.entries).map fun rest => rest.find? fun e => !e.2.isNil

end Table

end ScriptHost.Lua
