import Mathlib.Data.List.Forall2
import ScriptHost.Proofs.Crossing.Memory
import ScriptHost.Proofs.Crossing.Unfolding
import ScriptHost.Proofs.Lua.Table
import ScriptHost.Proofs.Value.Normal

/-!
# In and out again

A host value without functions becomes a datum whose written-out form is the normal form of the value.
The written-out form is where the two directions meet: going in makes tables that unfold to it, and going
out reads it off.
-/

set_option autoImplicit false

namespace ScriptHost.Crossing
open Lua Value

def grown (h : Heap) (ts : List Table) : Heap :=
  { h with
    tables := h.tables ++ ts.toArray
    there := by simpa using Nat.lt_of_lt_of_le h.there (Nat.le_add_right _ _) }

@[simp] theorem grown_nil (h : Heap) : grown h [] = h := by simp [grown]

@[simp] theorem grown_append (h : Heap) (ts us : List Table) :
    grown (grown h ts) us = grown h (ts ++ us) := by
  simp [grown, Array.append_assoc]

@[simp] theorem grown_size (h : Heap) (ts : List Table) :
    (grown h ts).tables.size = h.tables.size + ts.length := by simp [grown]

@[simp] theorem grown_globals (h : Heap) (ts : List Table) : (grown h ts).globals = h.globals := rfl

@[simp] theorem allocate_grown (h : Heap) (ts : List Table) (t : Table) :
    (grown h ts).allocate t = (h.tables.size + ts.length, grown h (ts ++ [t])) := by
  simp [grown, Heap.allocate]

theorem table_grown (h : Heap) (ts : List Table) (a : Nat) (ha : a < h.tables.size) :
    (grown h ts).table a = h.table a := by
  simp only [grown, Heap.table, Array.getD_eq_getD_getElem?]
  rw [Array.getElem?_append_left ha]

def Carries (h : Heap) (start : Nat) (ts : List Table) : Prop :=
  ∀ i t, ts[i]? = some t → h.table (start + i) = t

theorem carries_grown (h : Heap) (ts : List Table) : Carries (grown h ts) h.tables.size ts := by
  intro i t ht
  simp only [grown, Heap.table, Array.getD_eq_getD_getElem?]
  rw [Array.getElem?_append_right (Nat.le_add_right _ _), Nat.add_sub_cancel_left]
  simp [ht]

theorem carries_spending (h : Heap) (ts : List Table) (n : Nat) :
    Carries ((grown h ts).spending n) h.tables.size ts := carries_grown h ts

theorem carries_one {h : Heap} {start : Nat} {t : Table} (hc : Carries h start [t]) :
    h.table start = t := hc 0 t rfl

theorem carries_append {h : Heap} {start : Nat} {ts us : List Table}
    (hc : Carries h start (ts ++ us)) : Carries h start ts ∧ Carries h (start + ts.length) us := by
  constructor
  · intro i t ht
    obtain ⟨hi, -⟩ := List.getElem?_eq_some_iff.mp ht
    exact hc i t (by rw [List.getElem?_append_left hi, ht])
  · intro i t ht
    rw [Nat.add_assoc]
    exact hc _ t (by rw [List.getElem?_append_right (by omega), Nat.add_sub_cancel_left, ht])

/-- Tables from an address on are not touched by a change before it. -/
theorem carries_modify {h : Heap} {start address : Nat} {ts : List Table} (f : Table → Table)
    (ha : address < start) (hc : Carries h start ts) : Carries (h.modify address f) start ts := by
  intro i t ht
  rw [← hc i t ht]
  simp only [Heap.table, Heap.modify, Array.getD_eq_getD_getElem?]
  rw [Array.getElem?_modify, if_neg (by omega)]

def NoHandle (_ : Handle) (_ : Datum) : Prop := False

def Holds (Q : Datum → Value → Prop) (pairs : List (Datum × Datum))
    (entries : List (String × Value)) : Prop :=
  -- the entries of a table are those of a host table, in order, with data that `Q` relates to the
  -- values
  List.Forall₂ (fun p e => p.1 = tableKey e.1 ∧ Q p.2 e.2) pairs entries

theorem holds_keys {Q : Datum → Value → Prop} {pairs : List (Datum × Datum)}
    {entries : List (String × Value)} (hh : Holds Q pairs entries) :
    pairs.map (·.1) = (entries.map (·.1)).map tableKey := by
  induction hh with
  | nil => rfl
  | cons he _ ih => simp only [List.map_cons, he.1, ih]

theorem holds_map {Q : Datum → Value → Prop} {f : Value → Value} {pairs : List (Datum × Datum)}
    {entries : List (String × Value)} (hh : Holds (fun d v => Q d (f v)) pairs entries) :
    Holds Q pairs (entries.map fun e => (e.1, f e.2)) :=
  List.forall₂_map_right_iff.mpr hh

/-- An index is the key that its numeral is of. -/
theorem tableKey_index {k : Datum} {i : Nat} (hi : Table.index? k = some i) :
    tableKey (toString i) = k := by
  obtain ⟨n, rfl, hn, -⟩ := (index_iff k i).mp hi
  have hk : integerKey? (toString i) = some n := by
    rw [integerKey_iff, hn]
    rfl
  simp only [tableKey, hk]

theorem tableKey_numeral {i : Nat} (h1 : 1 ≤ i) (hi : i < 2 ^ 63) :
    tableKey (toString i) = .int (Int64.ofNat i) :=
  tableKey_index ((index_iff _ i).mpr ⟨_, rfl, Int64.toInt_ofNat_of_lt hi, h1⟩)

theorem index_numeral {i : Nat} (h1 : 1 ≤ i) (hi : i < 2 ^ 63) :
    Table.index? (tableKey (toString i)) = some i := by
  rw [tableKey_numeral h1 hi, index_iff]
  exact ⟨_, rfl, Int64.toInt_ofNat_of_lt hi, h1⟩

theorem key_numeral {key : String} {i : Nat} (hi : Table.index? (tableKey key) = some i) :
    key = toString i := by
  obtain ⟨n, hn, hni, -⟩ := (index_iff _ i).mp hi
  have hm := mapKey_tableKey key
  rw [hn, mapKey, hni] at hm
  exact (Except.ok.inj hm).symm

/-- A table is read as a list exactly when the keys of its entries are the numerals. -/
theorem sequential_numerals {keys : List String} (hk : keys.Nodup) (hl : keys.length < 2 ^ 63) :
    Sequential (keys.map tableKey) ↔ keys.Perm (numerals keys.length) := by
  constructor
  · intro hs
    have hsub : keys ⊆ numerals keys.length := by
      intro key hkey
      obtain ⟨i, hi, h1, hb⟩ := sequential_index hs (List.mem_map.mpr ⟨key, hkey, rfl⟩)
      exact (mem_numerals _ _).mpr ⟨i, h1, by simpa using hb, key_numeral hi⟩
    exact (hk.subperm hsub).perm_of_length_le (by simp [numerals_length])
  · intro hp k hmem
    obtain ⟨key, hkey, rfl⟩ := List.mem_map.mp hmem
    obtain ⟨i, h1, hi, rfl⟩ := (mem_numerals _ _).mp (hp.mem_iff.mp hkey)
    exact ⟨i, index_numeral h1 (by omega), by simpa using hi⟩

theorem unfolds_tableForm {h : Heap} {a : Nat} {entries : List (String × Value)}
    (hh : Holds (Unfolds h NoHandle) (h.table a).pairs entries) (hk : (entries.map (·.1)).Nodup)
    (hl : entries.length < 2 ^ 63) : Unfolds h NoHandle (.table a) (tableForm entries) := by
  have hkeys := holds_keys hh
  have hn : ((h.table a).pairs.map (·.1)).Nodup := hkeys ▸ hk.map tableKey_injective
  have hlen : (h.table a).pairs.length = entries.length := hh.length_eq
  have hseq := sequential_numerals hk (by simpa using hl)
  rw [List.length_map, ← hkeys] at hseq
  have hzip : ∀ p ∈ (h.table a).pairs.zip entries, p.1.1 = tableKey p.2.1 ∧
      Unfolds h NoHandle p.1.2 p.2.2 := fun p hp => (List.forall₂_iff_zip.mp hh).2 hp
  unfold tableForm
  split
  · next hp =>
    apply Unfolds.list a _ hn (hseq.mpr hp) (by simp [hlen])
    intro k d i hkd hi
    obtain ⟨⟨key, v⟩, hv⟩ := zip_of_mem hlen.symm hkd
    obtain ⟨hkey, hu⟩ := hzip _ hv
    obtain rfl : k = tableKey key := hkey
    obtain rfl := key_numeral hi
    have hmem := (List.of_mem_zip hv).2
    obtain ⟨j, h1, hj, hij⟩ := (mem_numerals _ _).mp (hp.mem_iff.mp (List.mem_map.mpr ⟨_, hmem, rfl⟩))
    obtain rfl := numeral_injective hij
    have hnum : (numerals entries.length)[i - 1]? = some (toString i) := by
      rw [numerals, List.getElem?_map, List.getElem?_range' (by omega)]
      simp only [Option.map_some, Option.some.injEq]
      congr 1
      omega
    rw [List.getD_eq_getElem?_getD, List.getElem?_map, hnum, Option.map_some, Option.getD_some,
      Dict.find_of_mem hk hmem, Option.getD_some]
    exact hu
  · next hp =>
    apply Unfolds.map a entries hn (fun hs => hp (hseq.mp hs)) hlen.symm
    · intro p hp
      rw [(hzip p hp).1]
      exact mapKey_tableKey _
    · exact fun p hp => (hzip p hp).2

section
variable (session : SessionId) (pins : List Pin)

def Builds (P : Heap → Datum → Value → Prop) (v : Value) : Prop :=
  -- the value goes in where memory is not limited: its tables come behind those of the heap, and in
  -- every heap that has them there `P` says what it became
  ∀ h, h.Unlimited → ∃ d ts, inward session pins v h = .ok (d, grown h ts) ∧ d.isNil = v.isNil ∧
    ∀ h', Carries h' h.tables.size ts → P h' d v

variable {P : Heap → Datum → Value → Prop}

/-- What goes in where memory is not limited goes in everywhere, unless the memory runs out. -/
theorem builds_anywhere {v : Value} (hb : Builds session pins P v) (h : Heap) :
    (¬ h.Unlimited ∧ inward session pins v h = .error .outOfMemory) ∨
      ∃ d ts n, inward session pins v h = .ok (d, (grown h ts).spending n) ∧ d.isNil = v.isNil ∧
        ∀ h', Carries h' h.tables.size ts → P h' d v := by
  have hfree : (h.withMemory none 0).Unlimited := rfl
  obtain ⟨d, ts, hd, hnil, hc⟩ := hb _ hfree
  obtain ⟨a, h', n, -, hr, hl⟩ | ⟨e, hr, -⟩ | ⟨hlimit, hl⟩ :=
    inward_afforded session pins h.allocator v hfree h.spent
  · obtain ⟨rfl, rfl⟩ := Prod.mk.inj (Except.ok.inj (hd.symm.trans hr))
    exact .inr ⟨d, ts, n, hl, hnil, hc⟩
  · cases hd.symm.trans hr
  · exact .inl ⟨hlimit, hl⟩

theorem inwardItems_builds (vs : List Value) (hv : ∀ v ∈ vs, Builds session pins P v) (t : Table)
    (i : Nat) (h : Heap) (hfree : h.Unlimited) (h1 : 1 ≤ i) (hi : i - 1 + vs.length ≤ t.items.size) :
    ∃ ds ts t', inwardItems session pins t i vs h = .ok (t', grown h ts) ∧
      t'.items = Table.fill t.items (i - 1) ds ∧ t'.entries = t.entries ∧ ds.length = vs.length ∧
      ∀ h', Carries h' h.tables.size ts →
        Holds (P h') ((Table.present i ds).map fun e => (.int (Int64.ofNat e.1), e.2))
          (heldItems i vs) := by
  induction vs generalizing t i h with
  | nil =>
    refine ⟨[], [], t, ?_, rfl, rfl, rfl, fun _ _ => .nil⟩
    simp only [inwardItems, grown_nil]
  | cons v rest ih =>
    simp only [List.length_cons] at hi
    obtain ⟨d, ts, hd, hnil, hu⟩ := hv v (by simp) h hfree
    have hset := Table.setInt_item t i d h1 (by omega)
    have hsize : (t.putItem (i - 1) d).items.size = t.items.size := Array.size_setIfInBounds
    have hsmall : t.items.size < 2 ^ 63 := Nat.lt_of_le_of_lt t.small (by decide)
    obtain ⟨ds, us, t', hds, hitems, hentries, hlen, hholds⟩ := ih (fun w hw => hv w (by simp [hw]))
      (t.putItem (i - 1) d) (i + 1) (grown h ts) hfree (by omega) (by rw [hsize]; omega)
    refine ⟨d :: ds, ts ++ us, t', ?_, ?_, hentries, by simp [hlen], ?_⟩
    · simp [inwardItems, hd, hset, hds]
    · rw [hitems, Table.fill, show i - 1 + 1 = i + 1 - 1 by omega]
      rfl
    · intro h' hc
      obtain ⟨hts, hus⟩ := carries_append hc
      have hrest := hholds h' (by rwa [grown_size])
      simp only [Table.present, heldItems, hnil]
      split
      · exact hrest
      · exact .cons ⟨(tableKey_numeral h1 (by omega)).symm, hu h' hts⟩ hrest

theorem inwardMembers_builds (members : List (String × Value))
    (hv : ∀ e ∈ members, Builds session pins P e.2) (t : Table) (h : Heap) (hfree : h.Unlimited)
    (ht : t.items = #[]) (hk : (members.map (·.1)).Nodup)
    (hnew : ∀ e ∈ members, tableKey e.1 ∉ t.entries.map (·.1))
    (hr : t.entries.length + members.length ≤ t.room) :
    ∃ es ts t', inwardMembers session pins t members h = .ok (t', grown h ts) ∧
      t'.items = #[] ∧ t'.entries = t.entries ++ es ∧ (∀ e ∈ es, e.2.isNil = false) ∧
      ∀ h', Carries h' h.tables.size ts → Holds (P h') es (held (.map members)) := by
  induction members generalizing t h with
  | nil =>
    refine ⟨[], [], t, ?_, ht, (List.append_nil _).symm, by simp, fun _ _ => .nil⟩
    simp only [inwardMembers, grown_nil]
  | cons e rest ih =>
    obtain ⟨key, v⟩ := e
    simp only [List.length_cons] at hr
    obtain ⟨hkey, hrest⟩ := List.nodup_cons.mp hk
    obtain ⟨d, ts, hd, hnil, hu⟩ := hv (key, v) List.mem_cons_self h hfree
    have hc := claim_unlimited (h := grown h ts) hfree (keySize key)
    have habsent := hnew (key, v) List.mem_cons_self
    have hset := Table.set_entry t (tableKey key) d ht habsent (by omega)
    by_cases hdn : d.isNil = true
    · rw [if_pos hdn] at hset
      obtain ⟨es, us, t', hes, hitems, hentries, hthere, hholds⟩ :=
        ih (fun w hw => hv w (by simp [hw])) t (grown h ts) hfree ht hrest
          (fun w hw => hnew w (by simp [hw])) (by omega)
      refine ⟨es, ts ++ us, t', ?_, hitems, hentries, hthere, ?_⟩
      · simp [inwardMembers, hd, hc, hset, hes]
      · intro h' hc
        have hgone : v.isNil = true := hnil ▸ hdn
        have htail := hholds h' (by simpa only [grown_size] using (carries_append hc).2)
        simpa [held, hgone] using htail
    · rw [if_neg hdn] at hset
      obtain ⟨hadded, hmore, hroom⟩ := Table.addEntry_new t (tableKey key) d
        (by rw [ht]; exact Table.position_zero _) habsent (tableKey_key key)
      have hnext : ∀ w ∈ rest, tableKey w.1 ∉ (t.addEntry (tableKey key) d).entries.map (·.1) := by
        intro w hw
        rw [hmore, List.map_append, List.mem_append, List.map_singleton, List.mem_singleton, not_or]
        refine ⟨hnew w (by simp [hw]), fun heq => hkey ?_⟩
        exact List.mem_map.mpr ⟨w, hw, tableKey_injective heq⟩
      obtain ⟨es, us, t', hes, hitems, hentries, hthere, hholds⟩ :=
        ih (fun w hw => hv w (by simp [hw])) (t.addEntry (tableKey key) d) (grown h ts)
          hfree (hadded.trans ht) hrest hnext
          (by rw [hmore, hroom, List.length_append, List.length_singleton]; omega)
      refine ⟨(tableKey key, d) :: es, ts ++ us, t', ?_, hitems, ?_, ?_, ?_⟩
      · simp [inwardMembers, hd, hc, hset, hes]
      · rw [hentries, hmore, List.append_assoc, List.singleton_append]
      · simpa using ⟨by simpa using hdn, fun a b hab => hthere (a, b) hab⟩
      · intro h' hc
        obtain ⟨hts, hus⟩ := carries_append hc
        have htail := hholds h' (by rwa [grown_size])
        have hkept : v.isNil = false := by simpa [← hnil] using hdn
        simp only [held, List.filter_cons, hkept, Bool.not_false, if_true]
        exact .cons ⟨rfl, hu h' hts⟩ htail

theorem scalar_builds (v : Value) (d : Datum) (hd : ∀ h : Heap, h.Unlimited →
    inward session pins v h = .ok (d, h)) (hnil : d.isNil = v.isNil) (hp : ∀ h, P h d v) :
    Builds session pins P v :=
  fun h hfree => ⟨d, [], by simp [hd h hfree], hnil, fun h' _ => hp h'⟩

theorem inward_text {h : Heap} (hfree : h.Unlimited) (s : String) :
    inward session pins (.string s) h = .ok (.text s, h) := by
  simp [inward, hfree]

/-- A list becomes a new table with its items under the integers from one on. -/
theorem array_builds (items : List Value) (hl : items.length < 2 ^ 63)
    (hv : ∀ v ∈ items, Builds session pins P v) (h : Heap) (hfree : h.Unlimited) :
    ∃ a ts, inward session pins (.array items) h = .ok (.table a, grown h ts) ∧
      ∀ h', Carries h' h.tables.size ts → Holds (P h') (h'.table a).pairs (held (.array items)) := by
  have hsized : (Table.sized items.length 0).items = Array.replicate items.length .nil := by
    have hfits : items.length ≤ Table.capacity := Nat.le_sub_one_of_lt hl
    show Array.replicate (min items.length Table.capacity) Datum.nil = _
    rw [Nat.min_eq_left hfits]
  obtain ⟨ds, ts, t', hds, hitems, hentries, hlen, hholds⟩ := inwardItems_builds session pins items
    hv (.sized items.length 0) 1 h hfree (Nat.le_refl 1) (by simp [hsized])
  have hfill : t'.items = ds.toArray := by
    rw [hitems, hsized, ← hlen]
    exact Table.fill_all ds
  refine ⟨h.tables.size + ts.length, ts ++ [t'], ?_, ?_⟩
  · simp [inward, hfree, hds]
  · intro h' hc
    obtain ⟨hts, ht⟩ := carries_append hc
    rw [carries_one ht, Table.pairs_items t' ds hfill hentries]
    exact hholds h' hts

/-- A map becomes a new table with its members under the keys that their texts are of. -/
theorem map_builds (members : List (String × Value)) (hk : (members.map (·.1)).Nodup)
    (hv : ∀ e ∈ members, Builds session pins P e.2) (h : Heap) (hfree : h.Unlimited) :
    ∃ a ts, inward session pins (.map members) h = .ok (.table a, grown h ts) ∧
      ∀ h', Carries h' h.tables.size ts → Holds (P h') (h'.table a).pairs (held (.map members)) := by
  have hempty : (Table.sized 0 members.length).items = #[] := by simp [Table.sized]
  obtain ⟨es, ts, t', hes, hitems, hentries, hthere, hholds⟩ := inwardMembers_builds session pins
    members hv (.sized 0 members.length) h hfree hempty hk (by simp [Table.sized])
    (by simpa [Table.sized] using Table.roomFor_le members.length)
  obtain rfl : t'.entries = es := hentries
  refine ⟨h.tables.size + ts.length, ts ++ [t'], ?_, ?_⟩
  · simp [inward, hfree, hes]
  · intro h' hc
    obtain ⟨hts, ht⟩ := carries_append hc
    rw [carries_one ht, Table.pairs_entries t' hitems hthere]
    exact hholds h' hts

def Enters (v : Value) : Prop :=
  Builds session pins (fun h d v => Unfolds h NoHandle d v.normal) v

theorem enters {v : Value} (hw : WellFormed v) (hf : v.holdsFunction = false) :
    Enters session pins v := by
  induction hw with
  | nil => exact scalar_builds session pins _ .nil (fun _ _ => rfl) rfl (fun _ => .nil)
  | bool b => exact scalar_builds session pins _ (.bool b) (fun _ _ => rfl) rfl (fun _ => .bool b)
  | int n => exact scalar_builds session pins _ (.int n) (fun _ _ => rfl) rfl (fun _ => .int n)
  | float x => exact scalar_builds session pins _ (.float x) (fun _ _ => rfl) rfl (fun _ => .float x)
  | string s =>
    exact scalar_builds session pins _ (.text s) (fun _ hfree => inward_text session pins hfree s) rfl
      (fun _ => .string s)
  | function f => simp [holdsFunction] at hf
  | callable handle => simp [holdsFunction] at hf
  | array items hl hi ih =>
    simp only [holdsFunction, itemsHoldFunction_iff] at hf
    intro h hfree
    obtain ⟨a, ts, ha, hholds⟩ :=
      array_builds session pins items hl (fun v hv => ih v hv (hf v hv)) h hfree
    refine ⟨.table a, ts, ha, rfl, fun h' hc => ?_⟩
    have hmapped := holds_map (hholds h' hc)
    rw [held, ← normalItems_held] at hmapped
    show Unfolds h' NoHandle (.table a) (normal (.array items))
    rw [normal]
    exact unfolds_tableForm hmapped (normalItems_nodup 1 items)
      (Nat.lt_of_le_of_lt (normalItems_length 1 items) hl)
  | map members hl ho hm ih =>
    simp only [holdsFunction, membersHoldFunction_iff] at hf
    intro h hfree
    obtain ⟨a, ts, ha, hholds⟩ := map_builds session pins members (Dict.ordered_nodup ho)
      (fun e he => ih e he (hf e he)) h hfree
    refine ⟨.table a, ts, ha, rfl, fun h' hc => ?_⟩
    have hmapped := holds_map (hholds h' hc)
    rw [← normalMembers_held] at hmapped
    show Unfolds h' NoHandle (.table a) (normal (.map members))
    rw [normal]
    exact unfolds_tableForm hmapped (normalMembers_nodup ho)
      (Nat.lt_of_le_of_lt (normalMembers_length members) hl)

end

theorem outwardEntries_plain {κ : Type} (readKey : Datum → Except ScriptError κ)
    (convert : Conversion Datum Value) (pairs : List (Datum × Datum)) (entries : List (κ × Value))
    (s : Issue) (he : List.Forall₂
      (fun p e => readKey p.1 = .ok e.1 ∧ convert p.2 s = (.ok e.2, s)) pairs entries) :
    outwardEntries readKey convert pairs s = (.ok entries, s) := by
  induction he with
  | nil => rfl
  | cons he _ ih => simp only [outwardEntries, he.1, he.2, ih]

def listed (keys : List Datum) (items : List Value) : List (Datum × Value) :=
  keys.map fun k => (k, items.getD ((Table.index? k).getD 0 - 1) .nil)

theorem place_listed {keys : List Datum} {items : List Value} (hn : keys.Nodup)
    (hs : Sequential keys) (hl : items.length = keys.length) :
    place keys.length (listed keys items) = items := by
  have hkeys : (listed keys items).map Prod.fst = keys := by simp [listed, Function.comp_def]
  apply List.ext_getElem?
  intro j
  by_cases hj : j < keys.length
  · obtain ⟨k, hk, hi⟩ := sequential_covers keys hn hs (j + 1) (by omega) (by omega)
    have hmem : (k, items.getD j .nil) ∈ listed keys items :=
      List.mem_map.mpr ⟨k, hk, by rw [hi, Option.getD_some, Nat.add_sub_cancel]⟩
    have hget := place_get keys.length _ (hkeys.symm ▸ hn) k _ hmem (j + 1) hi (by omega)
    rw [Nat.add_sub_cancel] at hget
    rw [hget, List.getD_eq_getElem?_getD, List.getElem?_eq_getElem (by omega), Option.getD_some]
  · rw [List.getElem?_eq_none (by rw [place_length]; omega), List.getElem?_eq_none (by omega)]

/-- What has a written-out form without handles goes out as that form and takes no slots. -/
theorem unfolds_outward {h : Heap} {d : Datum} {v : Value} (hu : Unfolds h NoHandle d v) (fuel : Nat)
    (path : List Nat) (s : Issue) (hw : Clear h fuel path d) :
    outwardWithin h fuel path d s = (.ok v, s) := by
  induction hu generalizing fuel path with
  | nil => simp only [outwardWithin]
  | bool b => simp only [outwardWithin]
  | int n => simp only [outwardWithin]
  | float x => simp only [outwardWithin]
  | string t => simp only [Datum.text, outwardWithin, textOf_text, Except.map]
  | function a handle hi => exact hi.elim
  | list a items hn hs hl hi ih =>
    cases fuel with
    | zero => exact absurd hw clear_zero
    | succ fuel =>
      have hc := unfolds_crosses (.list a items hn hs hl hi)
      have hentries : outwardEntries .ok (outwardWithin h fuel (a :: path)) (h.table a).pairs s =
          (.ok (listed ((h.table a).pairs.map (·.1)) items), s) := by
        apply outwardEntries_plain
        rw [listed, List.map_map, List.forall₂_map_right_iff, List.forall₂_same]
        intro e he
        obtain ⟨i, hidx, -⟩ := sequential_index hs (List.mem_map.mpr ⟨e, he, rfl⟩)
        refine ⟨rfl, ?_⟩
        simp only [Function.comp_apply, hidx, Option.getD_some]
        exact ih e.1 e.2 i he hidx fuel (a :: path) (clear_entry hw hc he)
      rw [outwardWithin_open hw]
      simp only [outwardTable, (sequenceLength_iff _ hn _).mpr ⟨rfl, hs⟩, outwardItems_entries, hentries]
      rw [place_listed hn hs (by simpa using hl)]
  | map a members hn hs hl hk hm ih =>
    cases fuel with
    | zero => exact absurd hw clear_zero
    | succ fuel =>
      have hc := unfolds_crosses (.map a members hn hs hl hk hm)
      have hentries : outwardEntries mapKey (outwardWithin h fuel (a :: path)) (h.table a).pairs s =
          (.ok members, s) := by
        apply outwardEntries_plain
        apply List.forall₂_iff_zip.mpr
        refine ⟨hl.symm, ?_⟩
        intro e m hem
        refine ⟨hk (e, m) hem, ?_⟩
        exact ih (e, m) hem fuel (a :: path) (clear_entry hw hc (List.of_mem_zip hem).1)
      have hnone : sequenceLength? ((h.table a).pairs.map (·.1)) = none := by
        rw [Option.eq_none_iff_forall_not_mem]
        exact fun n hn' => hs ((sequenceLength_iff _ hn n).mp hn').2
      rw [outwardWithin_open hw]
      simp only [outwardTable, hnone, outwardMembers_entries, hentries]

end ScriptHost.Crossing
