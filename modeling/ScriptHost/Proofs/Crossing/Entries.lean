import Mathlib.Data.List.Perm.Basic
import ScriptHost.Proofs.Crossing.KeyTexts
import ScriptHost.Proofs.Crossing.Return

/-!
# The entries of tables that go out

A table that becomes a list keeps every entry at its index.  One that becomes a map keeps every entry under
the text of its key, unless a string among its keys is the text of another key: then the two become one
member, and which value that has depends on the order in which the table is gone through.  Without such a
pair the order does not matter, in the table or in any that it holds.
-/

set_option autoImplicit false

namespace ScriptHost.Crossing
open Lua

def Clash (keys : List Datum) : Prop :=
  -- a key, and beside it the string that is its text
  ∃ k ∈ keys, ∃ t, mapKey k = .ok t ∧ k ≠ .text t ∧ .text t ∈ keys

/-- A host value has as many members as there are entries, and every entry among them: at its index, or
under its text. -/
inductive Kept (h : Heap) (issued : Handle → Datum → Prop) (pairs : List (Datum × Datum)) : Value → Prop
  | list (items : List Value) (hl : items.length = pairs.length)
      (hi : ∀ e ∈ pairs, ∃ i v, Table.index? e.1 = some i ∧ items[i - 1]? = some v ∧ Unfolds h issued e.2 v) :
      Kept h issued pairs (.array items)
  | map (members : Dict Value) (hn : (members.map (·.1)).Nodup) (hl : members.length = pairs.length)
      (hm : ∀ e ∈ pairs, ∃ t v, mapKey e.1 = .ok t ∧ (t, v) ∈ members ∧ Unfolds h issued e.2 v) :
      Kept h issued pairs (.map members)

def Merged (h : Heap) (issued : Handle → Datum → Prop) (pairs : List (Datum × Datum))
    (members : Dict Value) : Prop :=
  -- every entry has a member under its text, with the value of an entry of that text: itself, or
  -- the other of a pair of a key and the string that is its text
  ∀ e ∈ pairs, ∃ t v, mapKey e.1 = .ok t ∧ (t, v) ∈ members ∧
    ∃ f ∈ pairs, mapKey f.1 = .ok t ∧ Unfolds h issued f.2 v ∧ (f.1 = e.1 ∨ f.1 = .text t ∨ e.1 = .text t)

theorem sequential_unclashed {keys : List Datum} (hs : Sequential keys) : ¬ Clash keys := by
  rintro ⟨-, -, t, -, -, htext⟩
  obtain ⟨i, hi, -⟩ := hs _ htext
  cases hi

section
variable {pairs : List (Datum × Datum)} {members : List (String × Value)}
  (hkeyed : ∀ e ∈ pairs, e.1.key? = some e.1) (hl : members.length = pairs.length)
  (hk : ∀ p ∈ pairs.zip members, mapKey p.1.1 = .ok p.2.1)
include hkeyed hl hk

/-- The texts are distinct exactly when no string is the text of another key. -/
theorem texts_nodup (hn : (pairs.map (·.1)).Nodup) :
    (members.map (·.1)).Nodup ↔ ¬ Clash (pairs.map (·.1)) := by
  have htexts : members.map (·.1) = (pairs.zip members).map fun p => p.2.1 := by
    calc members.map (·.1) = ((pairs.zip members).map Prod.snd).map (·.1) := by rw [List.map_snd_zip hl.le]
      _ = _ := List.map_map
  have hkeys : pairs.map (·.1) = (pairs.zip members).map fun p => p.1.1 := by
    calc pairs.map (·.1) = ((pairs.zip members).map Prod.fst).map (·.1) := by rw [List.map_fst_zip hl.ge]
      _ = _ := List.map_map
  constructor
  · rintro hnodup ⟨k, hmem, t, ht, hne, htext⟩
    obtain ⟨e, he, rfl⟩ := List.mem_map.mp hmem
    obtain ⟨f, hf, hft⟩ := List.mem_map.mp htext
    obtain ⟨m, hem⟩ := zip_of_mem hl he
    obtain ⟨n, hfn⟩ := zip_of_mem hl hf
    have hm : m.1 = t := Except.ok.inj ((hk _ hem).symm.trans ht)
    have hft' : mapKey f.1 = .ok t := by
      rw [hft]
      exact textOf_text t
    have hn : n.1 = t := Except.ok.inj ((hk _ hfn).symm.trans hft')
    rw [htexts] at hnodup
    have hsame := List.inj_on_of_nodup_map hnodup hem hfn (hm.trans hn.symm)
    exact hne ((congrArg (fun p => p.1.1) hsame).trans hft)
  · intro hclash
    rw [htexts]
    rw [hkeys] at hn
    refine List.Nodup.map_on (fun p hp q hq hpq => ?_) hn.of_map
    have hpmem := (List.of_mem_zip hp).1
    have hqmem := (List.of_mem_zip hq).1
    have htq : mapKey q.1.1 = .ok p.2.1 := (hk q hq).trans (congrArg Except.ok hpq.symm)
    refine List.inj_on_of_nodup_map hn hp hq ?_
    by_contra hne
    rcases mapKey_shared (hkeyed _ hpmem) (hkeyed _ hqmem) (hk p hp) htq with heq | htext | htext
    · exact hne heq
    · exact hclash ⟨q.1.1, List.mem_map_of_mem hqmem, p.2.1, htq, fun h => hne (htext.trans h.symm),
        List.mem_map.mpr ⟨p.1, hpmem, htext⟩⟩
    · exact hclash ⟨p.1.1, List.mem_map_of_mem hpmem, p.2.1, hk p hp, fun h => hne (h.trans htext.symm),
        List.mem_map.mpr ⟨q.1, hqmem, htext⟩⟩

theorem members_merged {h : Heap} {issued : Handle → Datum → Prop}
    (hm : ∀ p ∈ pairs.zip members, Unfolds h issued p.1.2 p.2.2) :
    Merged h issued pairs (Dict.ofList members) := by
  intro e he
  obtain ⟨m, hem⟩ := zip_of_mem hl he
  have htext : m.1 ∈ (Dict.ofList members).map (·.1) :=
    (Dict.ofList_keys _ _).mpr (List.mem_map_of_mem (List.of_mem_zip hem).2)
  obtain ⟨n, hn, hnm⟩ := List.mem_map.mp htext
  obtain ⟨f, hfn⟩ := zip_of_mem_right hl (Dict.mem_ofList hn)
  have hft := hk _ hfn
  rw [hnm] at hft
  have hfmem := (List.of_mem_zip hfn).1
  exact ⟨m.1, n.2, hk _ hem, hnm ▸ hn, f, hfmem, hft, hm _ hfn,
    mapKey_shared (hkeyed f hfmem) (hkeyed e he) hft (hk _ hem)⟩

end

section
variable {h : Heap} {issued : Handle → Datum → Prop} {a : Nat} {w : Value}

theorem table_keyed (h : Heap) (a : Nat) : ∀ e ∈ (h.table a).pairs, e.1.key? = some e.1 :=
  fun _ he => (h.table a).pairs_keyed he

/-- A table keeps its entries exactly when no key clashes with its text. -/
theorem unfolds_kept (hu : Unfolds h issued (.table a) w) :
    Kept h issued (h.table a).pairs w ↔ ¬ Clash ((h.table a).pairs.map (·.1)) := by
  cases hu with
  | list _ items hn hs hl hi =>
    refine iff_of_true (.list items hl fun e he => ?_) (sequential_unclashed hs)
    obtain ⟨i, hidx, hpos, hle⟩ := sequential_index hs (List.mem_map_of_mem he)
    have hlt : i - 1 < items.length := by
      rw [List.length_map] at hle
      omega
    have hv := hi e.1 e.2 i he hidx
    rw [List.getD_eq_getElem?_getD, List.getElem?_eq_getElem hlt, Option.getD_some] at hv
    exact ⟨i, items[i - 1], hidx, List.getElem?_eq_getElem hlt, hv⟩
  | map _ members hn hs hl hk hm =>
    have htexts := texts_nodup (table_keyed h a) hl hk hn
    constructor
    · rintro (_ | ⟨_, -, hlength, -⟩)
      exact htexts.mp ((Dict.ofList_full members).mp (hlength.trans hl.symm))
    · intro hclash
      have hperm := Dict.ofList_perm members (htexts.mpr hclash)
      refine .map _ (Dict.ordered_nodup (Dict.ofList_ordered members)) (hperm.length_eq.trans hl) fun e he => ?_
      obtain ⟨m, hem⟩ := zip_of_mem hl he
      exact ⟨m.1, m.2, hk _ hem, hperm.mem_iff.mpr (List.of_mem_zip hem).2, hm _ hem⟩

/-- With a clash it becomes a map with fewer members. -/
theorem unfolds_merged (hu : Unfolds h issued (.table a) w)
    (hclash : Clash ((h.table a).pairs.map (·.1))) :
    ∃ members, w = .map members ∧ members.length < (h.table a).pairs.length ∧
      Merged h issued (h.table a).pairs members := by
  cases hu with
  | list _ items hn hs => exact absurd hclash (sequential_unclashed hs)
  | map _ members hn hs hl hk hm =>
    have htexts := texts_nodup (table_keyed h a) hl hk hn
    have hfewer : (Dict.ofList members).length ≠ members.length := fun hlength =>
      htexts.mp ((Dict.ofList_full members).mp hlength) hclash
    refine ⟨_, rfl, ?_, members_merged (table_keyed h a) hl hk hm⟩
    rw [← hl]
    exact lt_of_le_of_ne (Dict.ofList_length members).1 hfewer

end

def Reordered (h h' : Heap) : Prop := ∀ a, (h'.table a).pairs.Perm (h.table a).pairs

def Unclashed (h : Heap) (d : Datum) : Prop :=
  ∀ a, Reaches h d (.table a) → ¬ Clash ((h.table a).pairs.map (·.1))

theorem sequential_perm {keys keys' : List Datum} (hp : keys'.Perm keys) (hs : Sequential keys) :
    Sequential keys' := by
  intro k hk
  rw [hp.length_eq]
  exact hs k (hp.mem_iff.mp hk)

theorem clash_perm {keys keys' : List Datum} (hp : keys'.Perm keys) (hc : Clash keys') : Clash keys := by
  obtain ⟨k, hk, t, ht, hne, htext⟩ := hc
  exact ⟨k, hp.mem_iff.mp hk, t, ht, hne, hp.mem_iff.mp htext⟩

section
variable {h h' : Heap} (hr : Reordered h h')
include hr

theorem reordered_symm : Reordered h' h := fun a => (hr a).symm

theorem reordered_keys (a : Nat) : ((h'.table a).pairs.map (·.1)).Perm ((h.table a).pairs.map (·.1)) :=
  (hr a).map _

theorem reaches_reordered {d e : Datum} (hd : Reaches h' d e) : Reaches h d e := by
  induction hd with
  | here => exact .here
  | entry _ he ih => exact .entry ih ((hr _).mem_iff.mp he)

theorem unclashed_reordered {d : Datum} (hc : Unclashed h d) : Unclashed h' d := fun a ha hclash =>
  hc a (reaches_reordered hr ha) (clash_perm (reordered_keys hr a) hclash)

/-- The written-out form is that of the reordered tables, too: a list has its values at the indices, and
the members of a map come in the order of their texts. -/
theorem unfolds_reordered {issued : Handle → Datum → Prop} {d : Datum} {v : Value}
    (hu : Unfolds h issued d v) (hc : Unclashed h d) : Unfolds h' issued d v := by
  induction hu with
  | nil => exact .nil
  | bool b => exact .bool b
  | int n => exact .int n
  | float x => exact .float x
  | string s => exact .string s
  | function a handle hi => exact .function a handle hi
  | list a items hn hs hl _ ih =>
    refine .list a items (h'.table a).pairs_nodup (sequential_perm (reordered_keys hr a) hs)
      (hl.trans (hr a).length_eq.symm) fun k d i hkd hi => ?_
    have hmem := (hr a).mem_iff.mp hkd
    exact ih k d i hmem hi fun b hb => hc b (reaches_head hmem hb)
  | map a members hn hs hl hk _ ih =>
    have hnodup := (texts_nodup (table_keyed h a) hl hk hn).mpr (hc a .here)
    have hzipped : List.Forall₂ (fun e m => mapKey e.1 = .ok m.1 ∧ Unfolds h' issued e.2 m.2)
        (h.table a).pairs members := by
      refine List.forall₂_iff_zip.mpr ⟨hl.symm, fun {e m} hem => ⟨hk _ hem, ih _ hem fun b hb => ?_⟩⟩
      exact hc b (reaches_head (List.of_mem_zip hem).1 hb)
    obtain ⟨members', hmoved, hperm⟩ := List.perm_comp_forall₂ (hr a) hzipped
    obtain ⟨hlength, hmoved⟩ := List.forall₂_iff_zip.mp hmoved
    have hnodup' : (members'.map (·.1)).Nodup := (hperm.map _).nodup_iff.mpr hnodup
    have hdict : Dict.ofList members = Dict.ofList members' :=
      Dict.ordered_unique (Dict.ofList_ordered _) (Dict.ofList_ordered _)
        ((Dict.ofList_perm _ hnodup).trans (hperm.symm.trans (Dict.ofList_perm _ hnodup').symm))
    rw [hdict]
    exact .map a members' (h'.table a).pairs_nodup
      (fun hs' => hs (sequential_perm (reordered_keys hr a).symm hs')) hlength.symm
      (fun p hp => (hmoved hp).1) fun p hp => (hmoved hp).2

end

/-- No handle is given out where no function is met. -/
theorem functionless_unfolds {h : Heap} {issued : Handle → Datum → Prop} {d : Datum} {v : Value}
    (hu : Unfolds h issued d v) (hf : ∀ f, ¬ Reaches h d (.function f)) : Unfolds h NoHandle d v := by
  induction hu with
  | nil => exact .nil
  | bool b => exact .bool b
  | int n => exact .int n
  | float x => exact .float x
  | string s => exact .string s
  | function a handle hi => exact absurd .here (hf a)
  | list a items hn hs hl _ ih =>
    exact .list a items hn hs hl fun k d i hkd hi => ih k d i hkd hi fun f hd => hf f (reaches_head hkd hd)
  | map a members hn hs hl hk _ ih =>
    exact .map a members hn hs hl hk fun p hp =>
      ih p hp fun f hd => hf f (reaches_head (List.of_mem_zip hp).1 hd)

/-- Without clashes the reordered tables go out in the same form, up to the slots that functions take, and
where there is no function with the same answer. -/
theorem outward_reordered {h h' : Heap} (hr : Reordered h h') {d : Datum} (hc : Unclashed h d)
    {s s' : Issue} {v : Value} (hout : outward h d s = (.ok v, s')) :
    (∃ v' s'', outward h' d s = (.ok v', s'') ∧ Unfolds h (Issued s s'') d v') ∧
      ((∀ f, ¬ Reaches h d (.function f)) → outward h' d s = outward h d s) := by
  have hu : Unfolds h (Issued s s') d v := outwardWithin_unfolds h _ [] d s s' v hout
  constructor
  · obtain ⟨v', s'', hout'⟩ := outward_succeeds (unfolds_crosses (unfolds_reordered hr hu hc)) s
    have hu' : Unfolds h' (Issued s s'') d v' := outwardWithin_unfolds h' _ [] d s s'' v' hout'
    exact ⟨v', s'', hout', unfolds_reordered (reordered_symm hr) hu' (unclashed_reordered hr hc)⟩
  · intro hf
    have hplain := functionless_unfolds hu hf
    have hhere : outward h d s = (.ok v, s) := unfolds_outward hplain _ [] s (clear_start h d)
    have hthere : outward h' d s = (.ok v, s) :=
      unfolds_outward (unfolds_reordered hr hplain hc) _ [] s (clear_start h' d)
    rw [hhere, hthere]

/-- A table that goes out keeps every entry, at its index or under its text, exactly when no string among
its keys is the text of another key.  Otherwise it becomes a map with fewer members, whose values are those
of entries with their texts.  And if no table that is met has such a pair, the order in which tables are
gone through does not matter. -/
theorem outward_keeps_entries {h : Heap} {a : Nat} {s s' : Issue} {w : Value}
    (hout : outward h (.table a) s = (.ok w, s')) :
    (Kept h (Issued s s') (h.table a).pairs w ↔ ¬ Clash ((h.table a).pairs.map (·.1))) ∧
    (Clash ((h.table a).pairs.map (·.1)) → ∃ members, w = .map members ∧
      members.length < (h.table a).pairs.length ∧ Merged h (Issued s s') (h.table a).pairs members) ∧
    (Unclashed h (.table a) → ∀ h', Reordered h h' →
      (∃ w' s'', outward h' (.table a) s = (.ok w', s'') ∧ Unfolds h (Issued s s'') (.table a) w') ∧
      ((∀ f, ¬ Reaches h (.table a) (.function f)) →
        outward h' (.table a) s = outward h (.table a) s)) := by
  have hu : Unfolds h (Issued s s') (.table a) w := outwardWithin_unfolds h _ [] _ s s' w hout
  exact ⟨unfolds_kept hu, unfolds_merged hu, fun hc h' hr => outward_reordered hr hc hout⟩

def unissued : Issue := ⟨⟨0, 0⟩, 1, []⟩

def everyKind : Heap :=
  { (default : Heap) with
    tables := #[Table.empty, ((((Table.sized 0 4).set (.int 2) (.text "integer")).set (.text "x")
      (.text "string")).set (.bool true) (.text "boolean")).set (.float .infinity) (.text "float")]
    there := Nat.two_pos }

def everyKindOut : Value :=
  .map [("2", .string "integer"), ("inf", .string "float"), ("true", .string "boolean"), ("x", .string "string")]

theorem everyKind_unclashed : ¬ Clash ((everyKind.table 1).pairs.map (·.1)) := by
  have hkeys : (everyKind.table 1).pairs.map (·.1) = [.int 2, .text "x", .bool true, .float .infinity] := rfl
  rw [hkeys]
  rintro ⟨k, hk, t, ht, hne, htext⟩
  obtain rfl : t = "x" := by
    have htext' : Datum.text t = .text "x" := by simpa [Datum.text] using htext
    have hsame : mapKey (.text t) = mapKey (.text "x") := congrArg mapKey htext'
    exact Except.ok.inj ((textOf_text t).symm.trans (hsame.trans (textOf_text "x")))
  simp only [List.mem_cons, List.not_mem_nil, or_false] at hk
  rcases hk with rfl | rfl | rfl | rfl
  · exact absurd (Except.ok.inj ht) (by decide)
  · exact hne rfl
  · exact absurd (Except.ok.inj ht) (by decide)
  · exact absurd (Except.ok.inj ht) (by decide +kernel)

theorem every_kind_kept : outward everyKind (.table 1) unissued = (.ok everyKindOut, unissued) ∧
    Kept everyKind (Issued unissued unissued) (everyKind.table 1).pairs everyKindOut :=
  ⟨rfl, (outward_keeps_entries rfl).1.mpr everyKind_unclashed⟩

def itemFirst : Heap :=
  -- a list item and a field that is named like its index
  { (default : Heap) with
    tables := #[Table.empty,
      (((Table.sized 1 2).set (.text "1") (.text "b")).set (.text "x") (.text "c")).setItems [.text "a"]]
    there := Nat.two_pos }

def itemLast : Heap :=
  -- the same entries, with the item added last
  { (default : Heap) with
    tables := #[Table.empty,
      (((Table.sized 0 4).set (.text "1") (.text "b")).set (.text "x") (.text "c")).set (.int 1) (.text "a")]
    there := Nat.two_pos }

/-- One of three entries is lost, and another one when the entries come in another order. -/
theorem item_and_field_merged :
    outward itemFirst (.table 1) unissued = (.ok (.map [("1", .string "b"), ("x", .string "c")]), unissued) ∧
    ¬ Kept itemFirst (Issued unissued unissued) (itemFirst.table 1).pairs
      (.map [("1", .string "b"), ("x", .string "c")]) ∧
    Reordered itemFirst itemLast ∧
    outward itemLast (.table 1) unissued = (.ok (.map [("1", .string "a"), ("x", .string "c")]), unissued) := by
  have hthree : (itemFirst.table 1).pairs.length = 3 := rfl
  refine ⟨rfl, ?_, fun a => ?_, rfl⟩
  · rintro (_ | ⟨_, -, hlength, -⟩)
    rw [hthree] at hlength
    exact absurd hlength (by decide)
  · match a with
    | 0 => exact .refl _
    | 1 => exact @List.perm_append_comm _ [(Datum.text "1", Datum.text "b"), (.text "x", .text "c")] [_]
    | a + 2 => exact .refl _

end ScriptHost.Crossing
