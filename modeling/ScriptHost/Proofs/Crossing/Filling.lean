import ScriptHost.Proofs.Crossing.Agreement

/-!
# Filling the slots of a list

Going through the entries of a table that becomes a list, each datum is converted and written to the slot
that its key names, one less as words of 64 bits count.  Here a write outside the list would show: it ends
the filling.  It never happens, each slot is written once, and the list that is left is the one that the
table becomes, in whatever order its entries come.
-/

set_option autoImplicit false

namespace ScriptHost.Crossing
open Lua

structure Counting (n : Nat) (keys : List Datum) : Prop where
  within : ∀ k ∈ keys, ∃ i : Int64, k = .int i ∧ 1 ≤ i.toInt ∧ i.toInt ≤ n
  every : ∀ m : Int, 1 ≤ m → m ≤ n → ∃ i : Int64, i.toInt = m ∧ .int i ∈ keys

/-- Distinct keys that count to `n` are `n` keys. -/
theorem counting_length {keys : List Datum} (hk : keys.Nodup) {n : Nat} (hc : Counting n keys) :
    keys.length = n := by
  have hsome : ∀ k ∈ keys, (Table.index? k).isSome := by
    intro k hmem
    obtain ⟨i, rfl, h1, -⟩ := hc.within k hmem
    rw [(index_iff _ i.toInt.toNat).mpr ⟨i, rfl, by omega, by omega⟩]
    rfl
  have hperm : (keys.filterMap Table.index?).Perm (List.range' 1 n) := by
    refine (List.perm_ext_iff_of_nodup (indices_nodup keys hk) List.nodup_range').mpr fun i => ?_
    simp only [List.mem_filterMap, List.mem_range'_1]
    constructor
    · rintro ⟨k, hmem, hi⟩
      obtain ⟨j, rfl, h1, hn⟩ := hc.within k hmem
      obtain ⟨_, heq, hj, -⟩ := (index_iff _ _).mp hi
      obtain rfl := Datum.int.inj heq
      omega
    · rintro ⟨h1, hn⟩
      obtain ⟨j, hj, hmem⟩ := hc.every i (by omega) (by omega)
      exact ⟨_, hmem, (index_iff _ i).mpr ⟨j, rfl, hj, h1⟩⟩
  rw [← List.filterMap_length_eq_length.mpr hsome, hperm.length_eq, List.length_range']

/-- Distinct keys count as those of a list of `n` items exactly when they are the integers from one to
`n`. -/
theorem sequenceLength_counting {keys : List Datum} (hk : keys.Nodup) (n : Nat) :
    sequenceLength? keys = some n ↔ Counting n keys := by
  rw [sequenceLength_iff keys hk]
  constructor
  · rintro ⟨rfl, hs⟩
    refine ⟨fun k hmem => ?_, fun m h1 hm => ?_⟩
    · obtain ⟨i, hi, h1, hle⟩ := sequential_index hs hmem
      obtain ⟨j, rfl, hj, -⟩ := (index_iff k i).mp hi
      exact ⟨j, rfl, by omega, by omega⟩
    · obtain ⟨k, hmem, hi⟩ := sequential_covers keys hk hs m.toNat (by omega) (by omega)
      obtain ⟨j, rfl, hj, -⟩ := (index_iff k _).mp hi
      exact ⟨j, by omega, hmem⟩
  · intro hc
    have hlength := counting_length hk hc
    refine ⟨hlength, fun k hmem => ?_⟩
    obtain ⟨i, rfl, h1, hn⟩ := hc.within k hmem
    exact ⟨i.toInt.toNat, (index_iff _ _).mpr ⟨i, rfl, by omega, by omega⟩, by omega⟩

inductive Halt where
  | failed (e : ScriptError)
  | outside (slot : Nat)

structure Filling where
  items : Array Value
  written : List Nat

def Filling.blank (n : Nat) : Filling := ⟨Array.replicate n .nil, []⟩

def Filling.write (f : Filling) (slot : Nat) (v : Value) : Filling :=
  ⟨f.items.setIfInBounds slot v, f.written ++ [slot]⟩

def slotOf (n : Int64) : Nat := (n - 1).toUInt64.toNat

def fill (convert : Conversion Datum Value) :
    List (Datum × Datum) → Filling → Issue → Except Halt Unit × Filling × Issue
  | [], f, s => (.ok (), f, s)
  | (.int n, d) :: rest, f, s =>
    match convert d s with
    | (.error e, s) => (.error (.failed e), f, s)
    | (.ok v, s) =>
      if slotOf n < f.items.size then fill convert rest (f.write (slotOf n) v) s
      else (.error (.outside (slotOf n)), f, s)
  | _ :: rest, f, s => fill convert rest f s

/-- The subtraction stays within 64 bits, and so does the word without a sign. -/
theorem slotOf_index {n : Int64} {i : Nat} (hi : Table.index? (.int n) = some i) : slotOf n = i - 1 := by
  obtain ⟨_, heq, hn, h1⟩ := (index_iff _ _).mp hi
  obtain rfl := Datum.int.inj heq
  have hlt := n.toInt_lt
  have hsub : (n - 1).toInt = n.toInt - 1 := by
    rw [Int64.toInt_sub, Int64.toInt_one]
    exact Int.bmod_eq_of_le (by omega) (by omega)
  have hle : (0 : Int64) ≤ n - 1 := by
    rw [Int64.le_iff_toInt_le, hsub, Int64.toInt_zero]
    omega
  rw [slotOf, Int64.toNat_toUInt64_of_le hle, Int64.toNatClampNeg, hsub]
  omega

def slots (entries : List (Datum × Datum)) : List Nat :=
  (entries.map (·.1)).filterMap fun k => (Table.index? k).map (· - 1)

@[simp] theorem slots_cons {k d : Datum} {i : Nat} (hi : Table.index? k = some i) (rest : List (Datum × Datum)) :
    slots ((k, d) :: rest) = (i - 1) :: slots rest :=
  List.filterMap_cons_some (congrArg _ hi)

/-- The keys of a list name each of its slots once. -/
theorem slots_perm {entries : List (Datum × Datum)} (hk : (entries.map (·.1)).Nodup)
    (hs : Sequential (entries.map (·.1))) : (slots entries).Perm (List.range entries.length) := by
  have hindices := (indices_perm _ hk hs).map (· - 1)
  rw [List.length_map, List.map_filterMap] at hindices
  have hrange : (List.range' 1 entries.length).map (· - 1) = List.range entries.length := by
    rw [List.range'_eq_map_range, List.map_map]
    exact List.map_id'' (fun i => Nat.add_sub_cancel_left 1 i) _
  exact hrange ▸ hindices

section
variable (convert : Conversion Datum Value)

section
variable {k d : Datum} {i : Nat} (hi : Table.index? k = some i) {f : Filling} (hb : i ≤ f.items.size)
  (rest : List (Datum × Datum)) {s s₁ : Issue}
include hi hb

theorem fill_written {v : Value} (hv : convert d s = (.ok v, s₁)) :
    fill convert ((k, d) :: rest) f s = fill convert rest (f.write (i - 1) v) s₁ := by
  obtain ⟨n, rfl, -, h1⟩ := (index_iff k i).mp hi
  have hin : i - 1 < f.items.size := by omega
  simp only [fill, hv, slotOf_index hi, if_pos hin]

omit hb in
theorem fill_refused {e : ScriptError} (hv : convert d s = (.error e, s₁)) :
    fill convert ((k, d) :: rest) f s = (.error (.failed e), f, s₁) := by
  obtain ⟨n, rfl, -⟩ := (index_iff k i).mp hi
  simp only [fill, hv]

end

/-- Entries convert when the first one does and then the others. -/
theorem outwardItems_ok {e : Datum × Datum} {rest : List (Datum × Datum)} {s s' : Issue}
    {values : List (Datum × Value)} (h : outwardItems convert (e :: rest) s = (.ok values, s')) :
    ∃ v s₁ tail, convert e.2 s = (.ok v, s₁) ∧ outwardItems convert rest s₁ = (.ok tail, s') ∧
      values = (e.1, v) :: tail := by
  rw [outwardItems] at h
  split at h
  · cases h
  · next v s₁ hv =>
    split at h
    · cases h
    · next tail s₂ htail =>
      cases h
      exact ⟨v, s₁, tail, hv, htail, rfl⟩

theorem outwardItems_error {x : Datum × Datum} {rest : List (Datum × Datum)} {s s' : Issue} {e : ScriptError}
    (h : outwardItems convert (x :: rest) s = (.error e, s')) :
    convert x.2 s = (.error e, s') ∨
      ∃ v s₁, convert x.2 s = (.ok v, s₁) ∧ outwardItems convert rest s₁ = (.error e, s') := by
  rw [outwardItems] at h
  split at h
  · next e' s₁ hv =>
    cases h
    exact .inl hv
  · next v s₁ hv =>
    split at h
    · next e' s₂ htail =>
      cases h
      exact .inr ⟨v, s₁, hv, htail⟩
    · cases h

def Fits (entries : List (Datum × Datum)) (f : Filling) : Prop :=
  ∀ e ∈ entries, ∃ i, Table.index? e.1 = some i ∧ i ≤ f.items.size

theorem fits_rest {e : Datum × Datum} {rest : List (Datum × Datum)} {f : Filling} (hf : Fits (e :: rest) f)
    (slot : Nat) (v : Value) : Fits rest (f.write slot v) := by
  intro x hx
  obtain ⟨i, hi, hb⟩ := hf x (List.mem_cons_of_mem e hx)
  exact ⟨i, hi, by rwa [Filling.write, Array.size_setIfInBounds]⟩

/-- When all entries convert, every one has written to its slot. -/
theorem fill_converted {entries : List (Datum × Datum)} {f : Filling} (hf : Fits entries f) {s s' : Issue}
    {values : List (Datum × Value)} (hv : outwardItems convert entries s = (.ok values, s')) :
    fill convert entries f s = (.ok (), ⟨values.foldl putAt f.items, f.written ++ slots entries⟩, s') := by
  induction entries generalizing f s values with
  | nil =>
    cases hv
    rw [fill, List.foldl_nil, slots, List.map_nil, List.filterMap_nil, List.append_nil]
  | cons e rest ih =>
    obtain ⟨k, d⟩ := e
    obtain ⟨i, hi, hb⟩ := hf (k, d) List.mem_cons_self
    obtain ⟨v, s₁, tail, hconv, htail, rfl⟩ := outwardItems_ok convert hv
    rw [fill_written convert hi hb rest hconv, ih (fits_rest hf (i - 1) v) htail, slots_cons hi, List.foldl_cons,
      putAt, hi, Filling.write, List.append_assoc, List.singleton_append]

/-- When a datum does not convert, the entries before it have written to their slots. -/
theorem fill_failed {entries : List (Datum × Datum)} {f : Filling} (hf : Fits entries f) {s s' : Issue}
    {e : ScriptError} (hv : outwardItems convert entries s = (.error e, s')) :
    ∃ f', fill convert entries f s = (.error (.failed e), f', s') ∧
      ∃ done, done <+: slots entries ∧ f'.written = f.written ++ done := by
  induction entries generalizing f s with
  | nil => cases hv
  | cons x rest ih =>
    obtain ⟨k, d⟩ := x
    obtain ⟨i, hi, hb⟩ := hf (k, d) List.mem_cons_self
    rcases outwardItems_error convert hv with hconv | ⟨v, s₁, hconv, htail⟩
    · exact ⟨f, fill_refused convert hi rest hconv, [], List.nil_prefix, (List.append_nil _).symm⟩
    · obtain ⟨f', hfill, done, hdone, hwritten⟩ := ih (fits_rest hf (i - 1) v) htail
      refine ⟨f', (fill_written convert hi hb rest hconv).trans hfill, (i - 1) :: done, ?_, ?_⟩
      · rw [slots_cons hi]
        exact (List.prefix_cons_inj (i - 1)).mpr hdone
      · rw [hwritten, Filling.write, List.append_assoc, List.singleton_append]

/-- How the filling of a list of `n` items ends: with every slot written once and the list that the entries
become, or with the error of an entry, no slot having been written twice. -/
inductive Filled (entries : List (Datum × Datum)) (n : Nat) (s : Issue) :
    Except Halt Unit × Filling × Issue → Prop
  | complete (f : Filling) (s' : Issue) (hw : f.written.Perm (List.range n))
      (ho : outwardTable convert entries s = (.ok (.array f.items.toList), s')) :
      Filled entries n s (.ok (), f, s')
  | failed (e : ScriptError) (f : Filling) (s' : Issue) (hn : f.written.Nodup)
      (hb : ∀ slot ∈ f.written, slot < n) (ho : outwardTable convert entries s = (.error e, s')) :
      Filled entries n s (.error (.failed e), f, s')

theorem fill_filled {entries : List (Datum × Datum)} (hk : (entries.map (·.1)).Nodup) {n : Nat}
    (hn : sequenceLength? (entries.map (·.1)) = some n) (s : Issue) :
    Filled convert entries n s (fill convert entries (.blank n) s) := by
  obtain ⟨hlength, hs⟩ := (sequenceLength_iff _ hk n).mp hn
  rw [List.length_map] at hlength
  have hslots := slots_perm hk hs
  rw [hlength] at hslots
  have hfits : Fits entries (.blank n) := by
    intro e he
    obtain ⟨i, hi, hb⟩ := hs e.1 (List.mem_map_of_mem he)
    rw [List.length_map] at hb
    exact ⟨i, hi, by rw [Filling.blank, Array.size_replicate]; omega⟩
  rcases hv : outwardItems convert entries s with ⟨e | values, s'⟩
  · obtain ⟨f, hfill, done, hdone, hwritten⟩ := fill_failed convert hfits hv
    rw [hfill]
    rw [Filling.blank, List.nil_append] at hwritten
    refine .failed e f s' ?_ (fun slot hslot => ?_) (by simp only [outwardTable, hn, hv])
    · rw [hwritten]
      exact (hslots.nodup_iff.mpr List.nodup_range).sublist hdone.sublist
    · rw [hwritten] at hslot
      exact List.mem_range.mp (hslots.mem_iff.mp (hdone.subset hslot))
  · rw [fill_converted convert hfits hv]
    refine .complete _ s' ?_ (by simp only [outwardTable, hn, hv]; rfl)
    rwa [Filling.blank, List.nil_append]

end

/-- Where the values are given the order of the entries does not matter to the list. -/
theorem place_perm {entries : List (Datum × Datum)} (hk : (entries.map (·.1)).Nodup)
    (hs : Sequential (entries.map (·.1))) {values values' : List (Datum × Value)}
    (hv : values.map (·.1) = entries.map (·.1)) (hp : values'.Perm values) :
    place entries.length values' = place entries.length values := by
  have hkeys : (values'.map (·.1)).Perm (values.map (·.1)) := hp.map _
  have hn : (values.map (·.1)).Nodup := hv ▸ hk
  have hn' : (values'.map (·.1)).Nodup := hkeys.nodup_iff.mpr hn
  apply List.ext_getElem?
  intro j
  by_cases hj : j < entries.length
  · obtain ⟨k, hmem, hi⟩ := sequential_covers _ hk hs (j + 1) (by omega) (by rwa [List.length_map])
    rw [← hv] at hmem
    obtain ⟨e, he, rfl⟩ := List.mem_map.mp hmem
    have hget := place_get entries.length values hn e.1 e.2 he (j + 1) hi hj
    have hget' := place_get entries.length values' hn' e.1 e.2 (hp.mem_iff.mpr he) (j + 1) hi hj
    exact hget'.trans hget.symm
  · rw [List.getElem?_eq_none (by rw [place_length]; omega), List.getElem?_eq_none (by rw [place_length]; omega)]

/-- Entries with distinct keys make a list of `n` items exactly when the keys are the integers from one to
`n`.  Filling its slots then never writes outside it, writes none twice and, if every datum converts, each
one, so that with given values the order of the entries does not matter.  The values themselves depend on it
only in the slots of handles: at each place of the list is its entry's datum written out, in another order
with other handles for the same functions, and without functions the same. -/
theorem sequence_filled (entries : List (Datum × Datum)) (hk : (entries.map (·.1)).Nodup) (n : Nat) :
    (sequenceLength? (entries.map (·.1)) = some n ↔ Counting n (entries.map (·.1))) ∧
    (sequenceLength? (entries.map (·.1)) = some n →
      (∀ convert s, Filled convert entries n s (fill convert entries (.blank n) s)) ∧
      (∀ values values' : List (Datum × Value), values.map (·.1) = entries.map (·.1) → values'.Perm values →
        place n values' = place n values) ∧
      ∀ h fuel path s items s', outwardTable (outwardWithin h fuel path) entries s = (.ok (.array items), s') →
        (∀ k d i, (k, d) ∈ entries → Table.index? k = some i →
          ∃ v, items[i - 1]? = some v ∧ Unfolds h (Issued s s') d v) ∧
        ∀ entries', entries'.Perm entries →
          ∃ items' s'', outwardTable (outwardWithin h fuel path) entries' s = (.ok (.array items'), s'') ∧
            List.Forall₂ (Value.Agrees (SameFunction (Issued s s') (Issued s s''))) items items' ∧
            ((∀ e ∈ entries, ∀ a, ¬ Reaches h e.2 (.function a)) → items' = items)) := by
  refine ⟨sequenceLength_counting hk n, fun hn => ?_⟩
  obtain ⟨hlength, hs⟩ := (sequenceLength_iff _ hk n).mp hn
  rw [List.length_map] at hlength
  refine ⟨fun convert s => fill_filled convert hk hn s,
    fun values values' hv hp => hlength ▸ place_perm hk hs hv hp, ?_⟩
  intro h fuel path s items s' hout
  refine ⟨(outwardTable_items hk hout).2.2, fun entries' hp => ?_⟩
  obtain ⟨items', s'', hout', hforms⟩ := items_reordered hk hp hout
  refine ⟨items', s'', hout', hforms.imp fun v v' ⟨e, _, hu, hu'⟩ => unfolds_agree hu hu', fun hf => ?_⟩
  have heq : List.Forall₂ Eq items items' :=
    hforms.imp fun v v' ⟨e, he, hu, hu'⟩ => functionless_eq hu hu' (hf e he)
  rw [List.forall₂_eq_eq_eq] at heq
  exact heq.symm

def shuffled : List (Datum × Datum) :=
  [(.int 3, .text "c"), (.int 1, .function 0), (.int 2, .text "b")]

theorem shuffled_filled : (shuffled.map (·.1)).Nodup ∧ sequenceLength? (shuffled.map (·.1)) = some 3 ∧
    Counting 3 (shuffled.map (·.1)) ∧
    Filled (outwardWithin default 0 []) shuffled 3 unissued
      (fill (outwardWithin default 0 []) shuffled (.blank 3) unissued) ∧
    ∃ items s', outwardTable (outwardWithin default 0 []) shuffled.reverse unissued = (.ok (.array items), s') ∧
      List.Forall₂
        (Value.Agrees (SameFunction (Issued unissued (unissued.add (.function 0)).2) (Issued unissued s')))
        [.callable ⟨⟨0, 0⟩, 1⟩, .string "b", .string "c"] items := by
  have hfilled := sequence_filled shuffled (by decide) 3
  obtain ⟨hfill, -, horder⟩ := hfilled.2 rfl
  obtain ⟨items, s', hout, hagree, -⟩ := (horder default 0 [] unissued _ _ rfl).2 _ shuffled.reverse_perm
  exact ⟨by decide, rfl, hfilled.1.mp rfl, hfill _ unissued, items, s', hout, hagree⟩

def inOrder : Heap :=
  { (default : Heap) with
    tables := #[Table.empty, Table.empty.setItems [.function 0, .function 1]]
    there := Nat.two_pos }

def secondFirst : Heap :=
  { (default : Heap) with
    tables := #[Table.empty, ((Table.sized 0 2).set (.int 2) (.function 1)).set (.int 1) (.function 0)]
    there := Nat.two_pos }

/-- The functions of a list take their slots in the order of its entries, so the same entries in another
order become lists that differ; and an entry that does not convert leaves its slot unwritten. -/
theorem slots_follow_order :
    Reordered inOrder secondFirst ∧
    (outward inOrder (.table 1) unissued).1 = .ok (.array [.callable ⟨⟨0, 0⟩, 1⟩, .callable ⟨⟨0, 0⟩, 2⟩]) ∧
    (outward secondFirst (.table 1) unissued).1 = .ok (.array [.callable ⟨⟨0, 0⟩, 2⟩, .callable ⟨⟨0, 0⟩, 1⟩]) ∧
    (Value.array [.callable ⟨⟨0, 0⟩, 1⟩, .callable ⟨⟨0, 0⟩, 2⟩]).beq
      (.array [.callable ⟨⟨0, 0⟩, 2⟩, .callable ⟨⟨0, 0⟩, 1⟩]) = false ∧
    sequenceLength? [.int 1] = some 1 ∧
    (fill (outwardWithin inOrder 0 []) [(.int 1, .thread 0)] (.blank 1) unissued).2.1.written = [] := by
  refine ⟨fun a => ?_, rfl, rfl, rfl, rfl, rfl⟩
  match a with
  | 0 => exact .refl _
  | 1 => exact .swap _ _ _
  | a + 2 => exact .refl _

end ScriptHost.Crossing
