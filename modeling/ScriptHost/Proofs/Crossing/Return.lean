import ScriptHost.Proofs.Crossing.NormalForm

/-!
# Out and in again

A table key goes out as a text and comes back as the key that the text is of.  For an integer, and for a
text that is no numeral of one, that is the key itself, so a finite datum with such keys returns with the
entries that it had, lists and maps nested and mixed in any way.
-/

set_option autoImplicit false

namespace ScriptHost.Crossing
open Lua Value

/-- A key that no other key goes out as: an integer, or a text that is not the decimal form of one. -/
inductive PlainKey : Datum → Prop
  | int (n : Int64) : PlainKey (.int n)
  | text (s : String) (hs : ∀ n : Int64, s ≠ toString n.toInt) : PlainKey (.text s)

/-- A datum of scalars, texts and tables with plain keys.  That it is written down in finitely many
steps leaves out the tables that hold themselves. -/
inductive Plain (h : Heap) : Datum → Prop
  | nil : Plain h .nil
  | bool (b : Bool) : Plain h (.bool b)
  | int (n : Int64) : Plain h (.int n)
  | float (x : Binary64) : Plain h (.float x)
  | text (s : String) : Plain h (.text s)
  | table (a : Nat) (hk : ∀ k d, (k, d) ∈ (h.table a).pairs → PlainKey k)
      (hd : ∀ k d, (k, d) ∈ (h.table a).pairs → Plain h d) : Plain h (.table a)

/-- Data of two heaps with the same structure: scalars are the same, tables have the same keys and
under each key data with the same structure. -/
inductive Alike (h h' : Heap) : Datum → Datum → Prop
  | scalar (d : Datum) (hd : ∀ a, d ≠ .table a) : Alike h h' d d
  | table (a b : Nat)
      (hk : ∀ k, k ∈ (h.table a).pairs.map (·.1) ↔ k ∈ (h'.table b).pairs.map (·.1))
      (hd : ∀ k d e, (k, d) ∈ (h.table a).pairs → (k, e) ∈ (h'.table b).pairs → Alike h h' d e) :
      Alike h h' (.table a) (.table b)

theorem plainKey_text {s : String} (hs : integerKey? s = none) : PlainKey (.text s) :=
  .text s fun n hn => by simp [(integerKey_iff s n).mpr hn] at hs

theorem plainKey_crosses {k : Datum} (hk : PlainKey k) : KeyCrosses k := by
  cases hk with
  | int n => trivial
  | text s hs => exact s.isValidUTF8

/-- A plain key is the key of its text. -/
theorem plainKey_returns {k : Datum} {key : String} (hk : PlainKey k) (hm : mapKey k = .ok key) :
    tableKey key = k := by
  cases hk with
  | int n =>
    obtain rfl := Except.ok.inj hm
    simp only [tableKey, integerKey_toString]
  | text s hs =>
    obtain rfl : s = key := Except.ok.inj ((textOf_text s).symm.trans hm)
    have hnone : integerKey? s = none :=
      Option.eq_none_iff_forall_not_mem.mpr fun n hn => hs n (integerKey_text hn)
    simp only [tableKey, hnone]

theorem plain_crosses {h : Heap} {d : Datum} (hd : Plain h d) : Crosses h d := by
  induction hd with
  | text s => exact crosses_leaf (by simp [Datum.text]) s.isValidUTF8
  | table a hk _ ih => exact crosses_table fun k d hkd => ⟨plainKey_crosses (hk k d hkd), ih k d hkd⟩
  | _ => exact crosses_leaf (by simp) trivial

theorem plain_entry {h : Heap} {a : Nat} (hp : Plain h (.table a)) {e : Datum × Datum}
    (he : e ∈ (h.table a).pairs) : PlainKey e.1 ∧ Plain h e.2 := by
  cases hp with
  | table a hk hd => exact ⟨hk e.1 e.2 he, hd e.1 e.2 he⟩

theorem plain_table {h : Heap} {a : Nat} (pairs : List (Datum × Datum))
    (ht : (h.table a).pairs = pairs) (he : ∀ e ∈ pairs, PlainKey e.1 ∧ Plain h e.2) :
    Plain h (.table a) :=
  .table a (fun k d hkd => (he (k, d) (ht ▸ hkd)).1) fun k d hkd => (he (k, d) (ht ▸ hkd)).2

/-- No handle is given out for plain data. -/
theorem plain_unfolds {h : Heap} {issued : Handle → Datum → Prop} {d : Datum} {v : Value}
    (hp : Plain h d) (hu : Unfolds h issued d v) : Unfolds h NoHandle d v := by
  induction hu with
  | nil => exact .nil
  | bool b => exact .bool b
  | int n => exact .int n
  | float x => exact .float x
  | string s => exact .string s
  | function a handle hi => nomatch hp
  | list a items hn hs hl _ ih =>
    exact .list a items hn hs hl fun k d i hkd hi => ih k d i hkd hi (plain_entry hp hkd).2
  | map a members hn hs hl hk _ ih =>
    exact .map a members hn hs hl hk fun p hp' =>
      ih p hp' (plain_entry hp (List.of_mem_zip hp').1).2

theorem plain_outward {h : Heap} {d : Datum} (hp : Plain h d) :
    ∃ v, Unfolds h NoHandle d v ∧ ∀ s, outward h d s = (.ok v, s) := by
  obtain ⟨v, s, hv⟩ := outward_succeeds (plain_crosses hp) ⟨⟨0, 0⟩, 0, []⟩
  have hu := plain_unfolds hp (outwardWithin_unfolds h _ [] d _ s v hv)
  exact ⟨v, hu, fun s => unfolds_outward hu _ [] s (clear_start h d)⟩

theorem unfolds_isNil {h : Heap} {issued : Handle → Datum → Prop} {d : Datum} {v : Value}
    (hu : Unfolds h issued d v) : v.isNil = d.isNil := by
  cases hu <;> rfl

theorem array_table {h : Heap} {issued : Handle → Datum → Prop} {d : Datum} {items : List Value}
    (hu : Unfolds h issued d (.array items)) : ∃ a, d = .table a := by
  cases hu with
  | list a => exact ⟨a, rfl⟩

theorem map_table {h : Heap} {issued : Handle → Datum → Prop} {d : Datum}
    {members : List (String × Value)} (hu : Unfolds h issued d (.map members)) : ∃ a, d = .table a := by
  generalize hv : Value.map members = v at hu
  cases hu with
  | map a => exact ⟨a, rfl⟩
  | _ => nomatch hv

/-- The members that plain data was written out as have its keys. -/
theorem members_hold {h : Heap} {a : Nat} {members : List (String × Value)}
    (hp : Plain h (.table a)) (hl : members.length = (h.table a).pairs.length)
    (hk : ∀ p ∈ (h.table a).pairs.zip members, mapKey p.1.1 = .ok p.2.1)
    (hm : ∀ p ∈ (h.table a).pairs.zip members, Unfolds h NoHandle p.1.2 p.2.2) :
    Holds (Unfolds h NoHandle) (h.table a).pairs members := by
  apply List.forall₂_iff_zip.mpr
  refine ⟨hl.symm, ?_⟩
  intro e m hz
  have hplain := (plain_entry hp (List.of_mem_zip hz).1).1
  exact ⟨(plainKey_returns hplain (hk _ hz)).symm, hm _ hz⟩

theorem unfolds_held_nodup {h : Heap} {issued : Handle → Datum → Prop} {d : Datum} {v : Value}
    (hu : Unfolds h issued d v) : ((held v).map (·.1)).Nodup := by
  cases hu with
  | list a items => exact heldItems_nodup 1 items
  | map a members =>
    exact (Dict.ordered_nodup (Dict.ofList_ordered members)).sublist (List.filter_sublist.map _)
  | _ => exact List.nodup_nil

/-- The entries of plain data and those of the host value are the same, text for key. -/
theorem unfolds_held {h : Heap} {a : Nat} {v : Value} (hp : Plain h (.table a))
    (hu : Unfolds h NoHandle (.table a) v) :
    (∀ k d, (k, d) ∈ (h.table a).pairs →
      ∃ key w, k = tableKey key ∧ (key, w) ∈ held v ∧ Unfolds h NoHandle d w) ∧
    (∀ e ∈ held v, tableKey e.1 ∈ (h.table a).pairs.map (·.1)) := by
  have hthere : ∀ {k d w}, (k, d) ∈ (h.table a).pairs → Unfolds h NoHandle d w → w.isNil = false :=
    fun hkd hw => (unfolds_isNil hw).trans (Table.pairs_present _ hkd)
  cases hu with
  | list a items hn hs hl hi =>
    constructor
    · intro k d hkd
      obtain ⟨i, hidx, h1, hle⟩ := sequential_index hs (List.mem_map.mpr ⟨_, hkd, rfl⟩)
      have hw := hi k d i hkd hidx
      have hlt : i - 1 < items.length := by simp at hle; omega
      rw [List.getD_eq_getElem?_getD, List.getElem?_eq_getElem hlt, Option.getD_some] at hw
      refine ⟨toString i, items[i - 1], (tableKey_index hidx).symm, ?_, hw⟩
      exact (mem_heldItems 1 items _).mpr
        ⟨i - 1, List.getElem?_eq_getElem hlt, hthere hkd hw, by rw [Nat.add_sub_cancel' h1]⟩
    · intro e he
      obtain ⟨j, hj, -, hkey⟩ := (mem_heldItems 1 items e).mp he
      obtain ⟨hlt, -⟩ := List.getElem?_eq_some_iff.mp hj
      obtain ⟨k, hk, hidx⟩ := sequential_covers _ hn hs (1 + j) (by omega) (by simp; omega)
      rwa [hkey, tableKey_index hidx]
  | map a members hn hs hl hk hm =>
    have hholds := members_hold hp hl hk hm
    have hkeys := holds_keys hholds
    have hperm := Dict.ofList_perm members (hkeys ▸ hn).of_map
    constructor
    · intro k d hkd
      obtain ⟨⟨key, w⟩, hz⟩ := zip_of_mem hl hkd
      obtain ⟨hkey, hw⟩ := (List.forall₂_iff_zip.mp hholds).2 hz
      have hmem := hperm.mem_iff.mpr (List.of_mem_zip hz).2
      exact ⟨key, w, hkey, by simpa [held, hthere hkd hw] using hmem, hw⟩
    · intro e he
      have hmem := hperm.mem_iff.mp (List.mem_of_mem_filter he)
      rw [hkeys, List.map_map]
      exact List.mem_map.mpr ⟨e, hmem, rfl⟩

def Mirrored (h h' : Heap) (e : Datum) (v : Value) : Prop :=
  -- whatever plain datum the value was written out of, the datum of the other heap is alike
  ∀ d, Plain h d → Unfolds h NoHandle d v → Alike h h' d e

theorem scalar_mirrored (session : SessionId) (pins : List Pin) {h : Heap} (v : Value) (d : Datum)
    (hd : ∀ h' : Heap, h'.Unlimited → inward session pins v h' = .ok (d, h')) (hnil : d.isNil = v.isNil)
    (ht : ∀ a, d ≠ .table a) (hu : ∀ e, Unfolds h NoHandle e v → e = d) :
    Builds session pins (Mirrored h) v := by
  apply scalar_builds session pins v d hd hnil
  intro h' e _ he
  obtain rfl := hu e he
  exact .scalar e ht

theorem table_alike {h h' : Heap} {a b : Nat} {v : Value} (hp : Plain h (.table a))
    (hu : Unfolds h NoHandle (.table a) v)
    (hh : Holds (Mirrored h h') (h'.table b).pairs (held v)) : Alike h h' (.table a) (.table b) := by
  obtain ⟨hout, hback⟩ := unfolds_held hp hu
  apply Alike.table
  · intro k
    rw [holds_keys hh, List.map_map, List.mem_map, List.mem_map]
    constructor
    · rintro ⟨e, he, rfl⟩
      obtain ⟨key, w, hkey, hheld, -⟩ := hout e.1 e.2 he
      exact ⟨(key, w), hheld, hkey.symm⟩
    · rintro ⟨e, he, rfl⟩
      exact List.mem_map.mp (hback e he)
  · intro k d e hd he
    obtain ⟨key, w, rfl, hheld, hw⟩ := hout k d hd
    obtain ⟨⟨key', w'⟩, hz⟩ := zip_of_mem hh.length_eq.symm he
    obtain ⟨hkey, hmirror⟩ := (List.forall₂_iff_zip.mp hh).2 hz
    obtain rfl : key = key' := tableKey_injective hkey
    have hentry := List.inj_on_of_nodup_map (unfolds_held_nodup hu) hheld (List.of_mem_zip hz).2 rfl
    obtain rfl : w = w' := congrArg Prod.snd hentry
    exact hmirror d (plain_entry hp hd).2 hw

theorem array_mirrored (session : SessionId) (pins : List Pin) {h : Heap} {items : List Value}
    (hsmall : items.length < 2 ^ 63) (hitems : ∀ w ∈ items, Builds session pins (Mirrored h) w) :
    Builds session pins (Mirrored h) (.array items) := by
  intro h' hfree
  obtain ⟨b, ts, hb, hholds⟩ := array_builds session pins items hsmall hitems h' hfree
  refine ⟨.table b, ts, hb, rfl, fun h'' hc d hp hu => ?_⟩
  obtain ⟨a, rfl⟩ := array_table hu
  exact table_alike hp hu (hholds h'' hc)

theorem map_mirrored (session : SessionId) (pins : List Pin) {h : Heap} {members : Dict Value}
    (hk : (members.map (·.1)).Nodup)
    (hmembers : ∀ e ∈ members, Builds session pins (Mirrored h) e.2) :
    Builds session pins (Mirrored h) (.map members) := by
  intro h' hfree
  obtain ⟨b, ts, hb, hholds⟩ := map_builds session pins members hk hmembers h' hfree
  refine ⟨.table b, ts, hb, rfl, fun h'' hc d hp hu => ?_⟩
  obtain ⟨a, rfl⟩ := map_table hu
  exact table_alike hp hu (hholds h'' hc)

/-- A value that plain data was written out as goes in as data like it. -/
theorem plain_mirrored (session : SessionId) (pins : List Pin) {h : Heap} {d : Datum} {v : Value}
    (hu : Unfolds h NoHandle d v) (hp : Plain h d) :
    Builds session pins (Mirrored h) v := by
  induction hu with
  | nil =>
    apply scalar_mirrored session pins _ .nil (fun _ _ => rfl) rfl (by simp)
    rintro e ⟨⟩
    rfl
  | bool b =>
    apply scalar_mirrored session pins _ (.bool b) (fun _ _ => rfl) rfl (by simp)
    rintro e ⟨⟩
    rfl
  | int n =>
    apply scalar_mirrored session pins _ (.int n) (fun _ _ => rfl) rfl (by simp)
    rintro e ⟨⟩
    rfl
  | float x =>
    apply scalar_mirrored session pins _ (.float x) (fun _ _ => rfl) rfl (by simp)
    rintro e ⟨⟩
    rfl
  | string s =>
    apply scalar_mirrored session pins _ (.text s) (fun _ hfree => inward_text session pins hfree s) rfl
      (by simp [Datum.text])
    rintro e ⟨⟩
    rfl
  | function a handle hi => exact hi.elim
  | list a items hn hs hl hi ih =>
    apply array_mirrored session pins (by simpa [hl] using sequential_small hn hs)
    -- the induction goes over the entries of the table, so each item is looked up under its index
    intro w hw
    obtain ⟨j, hj, rfl⟩ := List.mem_iff_getElem.mp hw
    obtain ⟨k, hk, hidx⟩ := sequential_covers _ hn hs (j + 1) (by omega) (by simp; omega)
    obtain ⟨e, he, rfl⟩ := List.mem_map.mp hk
    have hbuilds := ih e.1 e.2 (j + 1) he hidx (plain_entry hp he).2
    rwa [Nat.add_sub_cancel, List.getD_eq_getElem?_getD, List.getElem?_eq_getElem hj,
      Option.getD_some] at hbuilds
  | map a members hn hs hl hk hm ih =>
    apply map_mirrored session pins (Dict.ordered_nodup (Dict.ofList_ordered members))
    intro e he
    have hkeys := holds_keys (members_hold hp hl hk hm)
    have hperm := Dict.ofList_perm members (hkeys ▸ hn).of_map
    obtain ⟨p, hz⟩ := zip_of_mem_right hl (hperm.mem_iff.mp he)
    exact ih _ hz (plain_entry hp (List.of_mem_zip hz).1).2

/-- Plain data of a script goes out without fail, and what the host got goes into any heap, unless a limit
of its memory stops it, as data with the same structure: the same keys of the same types, and the same under
every key, at every depth. -/
theorem plain_returns {h : Heap} {d : Datum} (hp : Plain h d) :
    ∃ v, (∀ s, outward h d s = (.ok v, s)) ∧ ∀ session pins (h' : Heap),
      (¬ h'.Unlimited ∧ inward session pins v h' = .error .outOfMemory) ∨
        ∃ d' ts n, inward session pins v h' = .ok (d', (grown h' ts).spending n) ∧
          Alike h ((grown h' ts).spending n) d d' := by
  obtain ⟨v, hu, hout⟩ := plain_outward hp
  refine ⟨v, hout, fun session pins h' => ?_⟩
  obtain hrefused | ⟨d', ts, n, hin, -, hmirror⟩ :=
    builds_anywhere session pins (plain_mirrored session pins hu hp) h'
  · exact .inl hrefused
  · exact .inr ⟨d', ts, n, hin, hmirror _ (carries_spending h' ts n) d hp hu⟩

def mixedHeap : Heap :=
  { (default : Heap) with
    tables := #[Table.empty, Table.empty.setItems [.bool true, .float ⟨0⟩],
      ((((Table.sized 0 4).set (.int (-3)) (.text "minus")).set (.int 0) (.table 1)).set (.text "01")
        (.int 7)).set (.text "x") (.table 0)]
    there := by decide }

theorem mixed_plain : Plain mixedHeap (.table 2) := by
  have hempty : Plain mixedHeap (.table 0) := plain_table [] rfl (by simp)
  have hlist : Plain mixedHeap (.table 1) := by
    apply plain_table [(.int 1, .bool true), (.int 2, .float ⟨0⟩)] rfl
    simp only [List.forall_mem_cons]
    exact ⟨⟨.int 1, .bool true⟩, ⟨.int 2, .float ⟨0⟩⟩, by simp⟩
  apply plain_table [(.int (-3), .text "minus"), (.int 0, .table 1), (.text "01", .int 7),
    (.text "x", .table 0)] rfl
  simp only [List.forall_mem_cons]
  exact ⟨⟨.int (-3), .text "minus"⟩, ⟨.int 0, hlist⟩, ⟨plainKey_text rfl, .int 7⟩,
    ⟨plainKey_text rfl, hempty⟩, by simp⟩

/-- A table with keys of both kinds, in which `"01"` stays a text. -/
theorem mixed_returns : Plain mixedHeap (.table 2) ∧
    ∃ v, (∀ s, outward mixedHeap (.table 2) s = (.ok v, s)) ∧ ∀ session pins (h' : Heap),
      (¬ h'.Unlimited ∧ inward session pins v h' = .error .outOfMemory) ∨
        ∃ d' ts n, inward session pins v h' = .ok (d', (grown h' ts).spending n) ∧
          Alike mixedHeap ((grown h' ts).spending n) (.table 2) d' :=
  ⟨mixed_plain, plain_returns mixed_plain⟩

end ScriptHost.Crossing
