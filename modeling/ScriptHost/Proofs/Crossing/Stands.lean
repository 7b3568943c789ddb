import ScriptHost.Proofs.Bridge.Install
import ScriptHost.Proofs.Crossing.Received

/-!
# What a script gets for a host value

The tables that a host value becomes hold its items and members, each under the key that its text is of.
`Stands` says so of a datum at every depth.  Whatever the host received, if there is no function in it, goes
in as a datum that stands for it, and two data that stand for one value are alike.
-/

set_option autoImplicit false

namespace ScriptHost

inductive Value.Regular : Value → Prop
  | nil : Regular .nil
  | bool (b : Bool) : Regular (.bool b)
  | int (n : Int64) : Regular (.int n)
  | float (x : Binary64) : Regular (.float x)
  | string (s : String) : Regular (.string s)
  | function (f : HostFn) : Regular (.function f)
  | callable (h : Handle) : Regular (.callable h)
  | array (items : List Value) (hl : items.length < 2 ^ 63) (hi : ∀ v ∈ items, Regular v) :
      Regular (.array items)
  | map (members : List (String × Value)) (ho : Dict.Ordered members)
      (hm : ∀ e ∈ members, Regular e.2) : Regular (.map members)

namespace Crossing
open Lua Value

/-- What the host receives is regular. -/
theorem unfolds_regular {h : Heap} {issued : Handle → Datum → Prop} {d : Datum} {v : Value}
    (hu : Unfolds h issued d v) : v.Regular := by
  induction hu with
  | nil => exact .nil
  | bool b => exact .bool b
  | int n => exact .int n
  | float x => exact .float x
  | string s => exact .string s
  | function a handle _ => exact .callable handle
  | list a items hn hs hl _ ih =>
    have hsmall : items.length < 2 ^ 63 := by simpa [hl] using sequential_small hn hs
    refine .array items hsmall fun w hw => ?_
    obtain ⟨k, e, i, he, hi, rfl⟩ := list_item hn hs hl hw
    exact ih k e i he hi
  | map a members hn hs hl hk _ ih =>
    refine .map _ (Dict.ofList_ordered members) fun e he => ?_
    obtain ⟨p, hp⟩ := zip_of_mem_right hl (Dict.mem_ofList he)
    exact ih (p, e) hp

/-- A datum is what a script gets for a host value: scalars are the same, and a table holds what the value
holds, in its order and each under the key of its text. -/
inductive Stands (h : Heap) : Datum → Value → Prop
  | nil : Stands h .nil .nil
  | bool (b : Bool) : Stands h (.bool b) (.bool b)
  | int (n : Int64) : Stands h (.int n) (.int n)
  | float (x : Binary64) : Stands h (.float x) (.float x)
  | string (s : String) : Stands h (.text s) (.string s)
  | list (a : Nat) (items : List Value)
      (hl : (h.table a).pairs.length = (held (.array items)).length)
      (hk : ∀ p ∈ (h.table a).pairs.zip (held (.array items)), p.1.1 = tableKey p.2.1)
      (hd : ∀ p ∈ (h.table a).pairs.zip (held (.array items)), Stands h p.1.2 p.2.2) :
      Stands h (.table a) (.array items)
  | map (a : Nat) (members : List (String × Value))
      (hl : (h.table a).pairs.length = (held (.map members)).length)
      (hk : ∀ p ∈ (h.table a).pairs.zip (held (.map members)), p.1.1 = tableKey p.2.1)
      (hd : ∀ p ∈ (h.table a).pairs.zip (held (.map members)), Stands h p.1.2 p.2.2) :
      Stands h (.table a) (.map members)

section
variable {h h' : Heap} {a : Nat} {d e : Datum} {v : Value}

theorem stands_list {items : List Value} (hh : Holds (Stands h) (h.table a).pairs (held (.array items))) :
    Stands h (.table a) (.array items) := by
  obtain ⟨hl, hp⟩ := List.forall₂_iff_zip.mp hh
  exact .list a items hl (fun _ hmem => (hp hmem).1) fun _ hmem => (hp hmem).2

theorem stands_map {members : List (String × Value)}
    (hh : Holds (Stands h) (h.table a).pairs (held (.map members))) :
    Stands h (.table a) (.map members) := by
  obtain ⟨hl, hp⟩ := List.forall₂_iff_zip.mp hh
  exact .map a members hl (fun _ hmem => (hp hmem).1) fun _ hmem => (hp hmem).2

theorem stands_held (hs : Stands h (.table a) v) : Holds (Stands h) (h.table a).pairs (held v) := by
  cases hs with
  | list _ items hl hk hd => exact List.forall₂_iff_zip.mpr ⟨hl, fun hmem => ⟨hk _ hmem, hd _ hmem⟩⟩
  | map _ members hl hk hd => exact List.forall₂_iff_zip.mpr ⟨hl, fun hmem => ⟨hk _ hmem, hd _ hmem⟩⟩

theorem holds_nodup {Q : Datum → Value → Prop} {entries : List (String × Value)}
    (hh : Holds Q (h.table a).pairs entries) : (entries.map (·.1)).Nodup :=
  (holds_keys hh ▸ (h.table a).pairs_nodup).of_map

/-- What a table holds under the key of a text is what stands there for the value of the text. -/
theorem stands_get {members : List (String × Value)} (hs : Stands h (.table a) (.map members))
    (hn : (members.map (·.1)).Nodup) (key : String) :
    Stands h (h.get a (tableKey key)) ((Dict.find? members key).getD .nil) := by
  have hh := stands_held hs
  by_cases hthere : ∃ v, (key, v) ∈ held (.map members)
  · obtain ⟨v, hv⟩ := hthere
    obtain ⟨⟨k, d⟩, hz⟩ := zip_of_mem_right hh.length_eq.symm hv
    obtain ⟨hkey, hd⟩ := (List.forall₂_iff_zip.mp hh).2 hz
    obtain rfl : k = tableKey key := hkey
    rw [Heap.get, Table.get_of_pairs (List.of_mem_zip hz).1,
      Dict.find_of_mem hn (List.mem_of_mem_filter hv)]
    exact hd
  · have habsent : tableKey key ∉ (h.table a).pairs.map (·.1) := by
      rw [holds_keys hh, List.map_map]
      intro hmem
      obtain ⟨e, he, heq⟩ := List.mem_map.mp hmem
      obtain rfl : e.1 = key := tableKey_injective heq
      exact hthere ⟨e.2, he⟩
    have hnil : (Dict.find? members key).getD .nil = .nil := by
      cases hf : Dict.find? members key with
      | none => rfl
      | some v =>
        have hgone : v.isNil = true := by
          by_contra hv
          exact hthere ⟨v, List.mem_filter.mpr ⟨Dict.mem_of_find hf, by simpa using hv⟩⟩
        cases v <;> simp_all [isNil]
    rw [Heap.get, Table.get_absent habsent, hnil]
    exact .nil

theorem stands_isNil (hs : Stands h d v) : d.isNil = v.isNil := by
  cases hs <;> rfl

theorem tables_alike {b : Nat} (ha : Stands h (.table a) v) (hb : Stands h' (.table b) v)
    (hentries : ∀ p ∈ (h.table a).pairs.zip (held v), ∀ {e : Datum}, Stands h' e p.2.2 →
      Alike h h' p.1.2 e) : Alike h h' (.table a) (.table b) := by
  have hheld := stands_held ha
  have hheld' := stands_held hb
  apply Alike.table
  · intro k
    rw [holds_keys hheld, holds_keys hheld']
  · intro k d e hd he
    obtain ⟨⟨key, w⟩, hz⟩ := zip_of_mem hheld.length_eq.symm hd
    obtain ⟨⟨key', w'⟩, hz'⟩ := zip_of_mem hheld'.length_eq.symm he
    obtain ⟨hkey, -⟩ := (List.forall₂_iff_zip.mp hheld).2 hz
    obtain ⟨hkey', hstands⟩ := (List.forall₂_iff_zip.mp hheld').2 hz'
    obtain rfl : key = key' := tableKey_injective (hkey.symm.trans hkey')
    have hentry := List.inj_on_of_nodup_map (holds_nodup hheld) (List.of_mem_zip hz).2
      (List.of_mem_zip hz').2 rfl
    obtain rfl : w = w' := congrArg Prod.snd hentry
    exact hentries _ hz hstands

/-- Data that stand for one value are alike. -/
theorem stands_alike (hd : Stands h d v) (he : Stands h' e v) : Alike h h' d e := by
  induction hd generalizing e with
  | nil =>
    cases he
    exact .scalar .nil (by simp)
  | bool b =>
    cases he
    exact .scalar (.bool b) (by simp)
  | int n =>
    cases he
    exact .scalar (.int n) (by simp)
  | float x =>
    cases he
    exact .scalar (.float x) (by simp)
  | string s =>
    cases he
    exact .scalar (.text s) (by simp [Datum.text])
  | list a items hl hk hd ih =>
    cases he with
    | list b _ hl' hk' hd' =>
      exact tables_alike (.list a items hl hk hd) (.list b items hl' hk' hd') ih
  | map a members hl hk hd ih =>
    cases he with
    | map b _ hl' hk' hd' =>
      exact tables_alike (.map a members hl hk hd) (.map b members hl' hk' hd') ih

end

section
variable (session : SessionId) (pins : List Pin)

/-- A regular value without functions goes in as a datum that stands for it. -/
theorem regular_builds {v : Value} (hv : v.Regular) (hf : v.holdsFunction = false) :
    Builds session pins Stands v := by
  induction hv with
  | nil => exact scalar_builds session pins _ .nil (fun _ _ => rfl) rfl fun _ => .nil
  | bool b => exact scalar_builds session pins _ (.bool b) (fun _ _ => rfl) rfl fun _ => .bool b
  | int n => exact scalar_builds session pins _ (.int n) (fun _ _ => rfl) rfl fun _ => .int n
  | float x => exact scalar_builds session pins _ (.float x) (fun _ _ => rfl) rfl fun _ => .float x
  | string s =>
    exact scalar_builds session pins _ (.text s) (fun _ hfree => inward_text session pins hfree s) rfl
      fun _ => .string s
  | function f => simp [holdsFunction] at hf
  | callable handle => simp [holdsFunction] at hf
  | array items hl _ ih =>
    simp only [holdsFunction, itemsHoldFunction_iff] at hf
    intro h hfree
    obtain ⟨a, ts, ha, hholds⟩ :=
      array_builds session pins items hl (fun v hv => ih v hv (hf v hv)) h hfree
    exact ⟨.table a, ts, ha, rfl, fun h' hc => stands_list (hholds h' hc)⟩
  | map members ho _ ih =>
    simp only [holdsFunction, membersHoldFunction_iff] at hf
    intro h hfree
    obtain ⟨a, ts, ha, hholds⟩ := map_builds session pins members (Dict.ordered_nodup ho)
      (fun e he => ih e he (hf e he)) h hfree
    exact ⟨.table a, ts, ha, rfl, fun h' hc => stands_map (hholds h' hc)⟩

theorem inwardMembers_metatable {members : List (String × Value)} {t t' : Table} {h h' : Heap}
    (hin : inwardMembers session pins t members h = .ok (t', h')) : t'.metatable = t.metatable := by
  induction members generalizing t h with
  | nil =>
    obtain ⟨rfl, -⟩ := Prod.mk.inj (Except.ok.inj hin)
    rfl
  | cons e rest ih =>
    simp only [inwardMembers] at hin
    split at hin
    · cases hin
    · split at hin
      · cases hin
      · exact (ih hin).trans (t.set_metatable _ _)

theorem inwardMembers_grows {P : Heap → Datum → Value → Prop} {members : List (String × Value)}
    (hv : ∀ e ∈ members, Builds session pins P e.2) {t t' : Table} {h h' : Heap} (hfree : h.Unlimited)
    (hin : inwardMembers session pins t members h = .ok (t', h')) :
    h.tables.size ≤ h'.tables.size := by
  induction members generalizing t h with
  | nil =>
    obtain ⟨-, rfl⟩ := Prod.mk.inj (Except.ok.inj hin)
    exact Nat.le_refl _
  | cons e rest ih =>
    obtain ⟨he, hrest⟩ := List.forall_mem_cons.mp hv
    obtain ⟨d, ts, hd, -⟩ := he h hfree
    have hc := claim_unlimited (h := grown h ts) hfree (keySize e.1)
    simp only [inwardMembers, hd, hc] at hin
    have hgrows := ih hrest (h := grown h ts) hfree hin
    rw [grown_size] at hgrows
    omega

/-- The table of a map is a new one without a metatable. -/
theorem inward_map_new {P : Heap → Datum → Value → Prop} {members : List (String × Value)}
    (hv : ∀ e ∈ members, Builds session pins P e.2) {a : Nat} {h h' : Heap} (hfree : h.Unlimited)
    (hin : inward session pins (.map members) h = .ok (.table a, h')) :
    h.tables.size ≤ a ∧ a < h'.tables.size ∧ (h'.table a).metatable = none := by
  simp only [inward, claim_unlimited hfree] at hin
  split at hin
  · cases hin
  · next t h₁ ht =>
    obtain ⟨ha, rfl⟩ := Prod.mk.inj (Except.ok.inj hin)
    obtain rfl : h₁.tables.size = a := Datum.table.inj ha
    have htable : (h₁.allocate t).2.table h₁.tables.size = t := by
      simp [Heap.table, Heap.allocate, Array.getD_eq_getD_getElem?]
    refine ⟨inwardMembers_grows session pins hv hfree ht, by simp [Heap.allocate], ?_⟩
    rw [htable, inwardMembers_metatable session pins ht]
    rfl

/-- Heaps that have the same new tables have them at the same places. -/
theorem carries_table {h h' : Heap} {ts : List Table} (hc : Carries h' h.tables.size ts) {a : Nat}
    (hnew : h.tables.size ≤ a) (ha : a < (grown h ts).tables.size) :
    h'.table a = (grown h ts).table a := by
  rw [grown_size] at ha
  have hplace : a - h.tables.size < ts.length := by omega
  have ht : ts[a - h.tables.size]? = some ts[a - h.tables.size] := List.getElem?_eq_getElem hplace
  have hthere := hc _ _ ht
  have hgrown := carries_grown h ts _ _ ht
  rw [Nat.add_sub_cancel' hnew] at hthere hgrown
  rw [hthere, hgrown]

def StandsBare (h : Heap) (d : Datum) (v : Value) : Prop :=
  ∃ a, d = .table a ∧ (h.table a).metatable = none ∧ Stands h d v

theorem map_stands {members : List (String × Value)} (hv : (Value.map members).Regular)
    (hf : (Value.map members).holdsFunction = false) :
    Builds session pins StandsBare (.map members) := by
  have hmembers : ∀ e ∈ members, Builds session pins Stands e.2 := by
    cases hv with
    | map _ _ hm =>
      simp only [holdsFunction, membersHoldFunction_iff] at hf
      exact fun e he => regular_builds session pins (hm e he) (hf e he)
  intro h hfree
  obtain ⟨d, ts, hin, hnil, hstands⟩ := regular_builds session pins hv hf h hfree
  obtain ⟨a, rfl⟩ : ∃ a, d = .table a := by
    cases hstands _ (carries_grown h ts) with
    | map a => exact ⟨a, rfl⟩
  obtain ⟨hnew, ha, hbare⟩ := inward_map_new session pins hmembers hfree hin
  refine ⟨.table a, ts, hin, hnil, fun h' hc => ⟨a, rfl, ?_, hstands h' hc⟩⟩
  rw [carries_table hc hnew ha]
  exact hbare

end

end Crossing

end ScriptHost
