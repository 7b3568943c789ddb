import Mathlib.Data.List.Nodup
import Std.Data.String.ToNat
import ScriptHost.Value
import ScriptHost.Proofs.Dict

/-!
# Normal forms of host values

A script has one kind of table where the host has lists and maps, and a table holds no nil.  The normal
form of a value is what is left of it under these two rules: nil entries are gone, and a table is a list
exactly when its keys are the numerals from one to their number.
-/

set_option autoImplicit false

namespace ScriptHost.Value

def numerals (n : Nat) : List String := (List.range' 1 n).map toString

def tableForm (entries : List (String × Value)) : Value :=
  -- the host value that a table with these entries is
  if (entries.map (·.1)).Perm (numerals entries.length) then
    .array ((numerals entries.length).map fun key => (Dict.find? entries key).getD .nil)
  else .map (Dict.ofList entries)

mutual

def normal : Value → Value
  | .array items => tableForm (normalItems 1 items)
  | .map members => tableForm (normalMembers members)
  | .nil => .nil
  | .bool b => .bool b
  | .int n => .int n
  | .float x => .float x
  | .string s => .string s
  | .function f => .function f
  | .callable h => .callable h

def normalItems (i : Nat) : List Value → List (String × Value)
  | [] => []
  | v :: rest =>
    if v.isNil then normalItems (i + 1) rest else (toString i, v.normal) :: normalItems (i + 1) rest

def normalMembers : List (String × Value) → List (String × Value)
  | [] => []
  | (k, v) :: rest =>
    if v.isNil then normalMembers rest else (k, v.normal) :: normalMembers rest

end

def heldItems (i : Nat) : List Value → List (String × Value)
  | [] => []
  | v :: rest => if v.isNil then heldItems (i + 1) rest else (toString i, v) :: heldItems (i + 1) rest

def held : Value → List (String × Value)
  -- the entries that a table of a value has: those of its items or members that are there
  | .array items => heldItems 1 items
  | .map members => members.filter fun e => !e.2.isNil
  | _ => []

/-- A value that the host can hold: sizes are 64-bit numbers, and the keys of a map are in order. -/
inductive WellFormed : Value → Prop
  | nil : WellFormed .nil
  | bool (b : Bool) : WellFormed (.bool b)
  | int (n : Int64) : WellFormed (.int n)
  | float (x : Binary64) : WellFormed (.float x)
  | string (s : String) : WellFormed (.string s)
  | function (f : HostFn) : WellFormed (.function f)
  | callable (h : Handle) : WellFormed (.callable h)
  | array (items : List Value) (hl : items.length < 2 ^ 63) (hi : ∀ v ∈ items, WellFormed v) :
      WellFormed (.array items)
  | map (members : List (String × Value)) (hl : members.length < 2 ^ 63)
      (ho : Dict.Ordered members) (hm : ∀ e ∈ members, WellFormed e.2) : WellFormed (.map members)

theorem itemsHoldFunction_iff (items : List Value) :
    itemsHoldFunction items = false ↔ ∀ v ∈ items, v.holdsFunction = false := by
  induction items with
  | nil => simp [itemsHoldFunction]
  | cons v rest ih => simp [itemsHoldFunction, ih]

theorem membersHoldFunction_iff (members : List (String × Value)) :
    membersHoldFunction members = false ↔ ∀ e ∈ members, e.2.holdsFunction = false := by
  induction members with
  | nil => simp [membersHoldFunction]
  | cons e rest ih => simp [membersHoldFunction, ih]

theorem numeral_injective : Function.Injective (toString : Nat → String) :=
  fun _ _ h => Nat.repr_inj.mp h

@[simp] theorem numerals_length (n : Nat) : (numerals n).length = n := by simp [numerals]

theorem numeralsFrom_nodup (i n : Nat) : ((List.range' i n).map toString : List String).Nodup :=
  List.Nodup.map numeral_injective List.nodup_range'

theorem numerals_nodup (n : Nat) : (numerals n).Nodup := numeralsFrom_nodup 1 n

theorem mem_numerals (n : Nat) (key : String) :
    key ∈ numerals n ↔ ∃ i, 1 ≤ i ∧ i ≤ n ∧ key = toString i := by
  simp only [numerals, List.mem_map, List.mem_range'_1]
  constructor
  · rintro ⟨i, ⟨h1, hi⟩, rfl⟩
    exact ⟨i, h1, by omega, rfl⟩
  · rintro ⟨i, h1, hi, rfl⟩
    exact ⟨i, ⟨h1, by omega⟩, rfl⟩

theorem normalItems_keys (i : Nat) (items : List Value) :
    ((normalItems i items).map (·.1)).Sublist ((List.range' i items.length).map toString) := by
  induction items generalizing i with
  | nil => exact .slnil
  | cons v rest ih =>
    simp only [normalItems, List.length_cons, List.range'_succ, List.map_cons]
    split
    · exact (ih (i + 1)).cons _
    · exact (ih (i + 1)).cons_cons _

theorem normalMembers_keys (members : List (String × Value)) :
    ((normalMembers members).map (·.1)).Sublist (members.map (·.1)) := by
  induction members with
  | nil => exact .slnil
  | cons e rest ih =>
    simp only [normalMembers, List.map_cons]
    split
    · exact ih.cons _
    · exact ih.cons_cons _

theorem mem_normalItems (i : Nat) (items : List Value) (e : String × Value)
    (he : e ∈ normalItems i items) : ∃ v ∈ items, v.isNil = false ∧ e.2 = v.normal := by
  induction items generalizing i with
  | nil => simp [normalItems] at he
  | cons v rest ih =>
    simp only [normalItems] at he
    split at he
    · obtain ⟨w, hw, h⟩ := ih (i + 1) he
      exact ⟨w, List.mem_cons_of_mem _ hw, h⟩
    · next hv =>
      rcases List.mem_cons.mp he with rfl | he
      · exact ⟨v, List.mem_cons_self, by simpa using hv, rfl⟩
      · obtain ⟨w, hw, h⟩ := ih (i + 1) he
        exact ⟨w, List.mem_cons_of_mem _ hw, h⟩

theorem mem_normalMembers (members : List (String × Value)) (e : String × Value)
    (he : e ∈ normalMembers members) : ∃ m ∈ members, m.2.isNil = false ∧ e.2 = m.2.normal := by
  induction members with
  | nil => simp [normalMembers] at he
  | cons m rest ih =>
    simp only [normalMembers] at he
    split at he
    · obtain ⟨w, hw, h⟩ := ih he
      exact ⟨w, List.mem_cons_of_mem _ hw, h⟩
    · next hv =>
      rcases List.mem_cons.mp he with rfl | he
      · exact ⟨m, List.mem_cons_self, by simpa using hv, rfl⟩
      · obtain ⟨w, hw, h⟩ := ih he
        exact ⟨w, List.mem_cons_of_mem _ hw, h⟩

theorem normalItems_length (i : Nat) (items : List Value) :
    (normalItems i items).length ≤ items.length := by
  simpa using (normalItems_keys i items).length_le

theorem normalMembers_length (members : List (String × Value)) :
    (normalMembers members).length ≤ members.length := by
  simpa using (normalMembers_keys members).length_le

theorem normalItems_nodup (i : Nat) (items : List Value) :
    ((normalItems i items).map (·.1)).Nodup :=
  (numeralsFrom_nodup i items.length).sublist (normalItems_keys i items)

theorem normalMembers_nodup {members : List (String × Value)} (ho : Dict.Ordered members) :
    ((normalMembers members).map (·.1)).Nodup :=
  (Dict.ordered_nodup ho).sublist (normalMembers_keys members)

theorem normalItems_held (i : Nat) (items : List Value) :
    normalItems i items = (heldItems i items).map fun e => (e.1, e.2.normal) := by
  induction items generalizing i with
  | nil => rfl
  | cons v rest ih =>
    simp only [normalItems, heldItems, ih]
    split <;> rfl

theorem normalMembers_held (members : List (String × Value)) :
    normalMembers members = (held (.map members)).map fun e => (e.1, e.2.normal) := by
  induction members with
  | nil => rfl
  | cons e rest ih =>
    obtain ⟨key, v⟩ := e
    simp only [normalMembers, held] at ih ⊢
    rw [ih]
    cases hv : v.isNil <;> simp [hv]

theorem heldItems_nodup (i : Nat) (items : List Value) :
    ((heldItems i items).map (·.1)).Nodup := by
  have hn := normalItems_nodup i items
  rwa [normalItems_held, List.map_map] at hn

theorem mem_heldItems (i : Nat) (items : List Value) (e : String × Value) :
    e ∈ heldItems i items ↔
      ∃ j, items[j]? = some e.2 ∧ e.2.isNil = false ∧ e.1 = toString (i + j) := by
  induction items generalizing i with
  | nil => simp [heldItems]
  | cons v rest ih =>
    have hrest : e ∈ heldItems (i + 1) rest ↔
        ∃ j, (v :: rest)[j + 1]? = some e.2 ∧ e.2.isNil = false ∧ e.1 = toString (i + (j + 1)) := by
      rw [ih (i + 1)]
      simp only [List.getElem?_cons_succ, Nat.add_assoc, Nat.add_comm 1]
    have hhead : e ∈ heldItems i (v :: rest) ↔
        (v.isNil = false ∧ e = (toString i, v)) ∨ e ∈ heldItems (i + 1) rest := by
      simp only [heldItems]
      cases hv : v.isNil <;> simp
    rw [hhead, hrest]
    constructor
    · rintro (⟨hv, rfl⟩ | ⟨j, hj⟩)
      · exact ⟨0, rfl, hv, rfl⟩
      · exact ⟨j + 1, hj⟩
    · rintro ⟨j, hj, hv, hkey⟩
      cases j with
      | zero =>
        obtain rfl : v = e.2 := by simpa using hj
        exact .inl ⟨hv, Prod.ext hkey rfl⟩
      | succ j => exact .inr ⟨j, hj, hv, hkey⟩

@[simp] theorem tableForm_isNil (entries : List (String × Value)) : (tableForm entries).isNil = false := by
  unfold tableForm
  split <;> rfl

theorem normal_isNil (v : Value) : v.normal.isNil = v.isNil := by
  cases v with
  | array items => rw [normal, tableForm_isNil]; rfl
  | map members => rw [normal, tableForm_isNil]; rfl
  | _ => rw [normal]

/-- Every item of a list made of entries is the value of one of them. -/
theorem mem_listed {entries : List (String × Value)} (hk : (entries.map (·.1)).Nodup)
    (hp : (entries.map (·.1)).Perm (numerals entries.length)) {v : Value}
    (hv : v ∈ (numerals entries.length).map fun key => (Dict.find? entries key).getD .nil) :
    ∃ e ∈ entries, e.2 = v := by
  obtain ⟨key, hkey, rfl⟩ := List.mem_map.mp hv
  obtain ⟨e, he, rfl⟩ := List.mem_map.mp (hp.mem_iff.mpr hkey)
  exact ⟨e, he, by rw [Dict.find_of_mem hk he, Option.getD_some]⟩

theorem tableForm_wellFormed {entries : List (String × Value)} (hk : (entries.map (·.1)).Nodup)
    (hl : entries.length < 2 ^ 63) (hv : ∀ e ∈ entries, WellFormed e.2) :
    WellFormed (tableForm entries) := by
  unfold tableForm
  split
  · next hp =>
    apply WellFormed.array _ (by simpa using hl)
    intro v hmem
    obtain ⟨e, he, rfl⟩ := mem_listed hk hp hmem
    exact hv e he
  · apply WellFormed.map _ (by simpa [(Dict.ofList_perm entries hk).length_eq] using hl)
      (Dict.ofList_ordered entries)
    exact fun e he => hv e (Dict.mem_ofList he)

theorem tableForm_plain {entries : List (String × Value)} (hk : (entries.map (·.1)).Nodup)
    (hv : ∀ e ∈ entries, e.2.holdsFunction = false) : (tableForm entries).holdsFunction = false := by
  unfold tableForm
  split
  · next hp =>
    simp only [holdsFunction, itemsHoldFunction_iff]
    intro v hmem
    obtain ⟨e, he, rfl⟩ := mem_listed hk hp hmem
    exact hv e he
  · simp only [holdsFunction, membersHoldFunction_iff]
    exact fun e he => hv e (Dict.mem_ofList he)

theorem normalItems_settled (i : Nat) (items : List Value)
    (hv : ∀ v ∈ items, v.isNil = false ∧ v.normal = v) :
    normalItems i items = ((List.range' i items.length).map toString).zip items := by
  induction items generalizing i with
  | nil => simp [normalItems]
  | cons v rest ih =>
    obtain ⟨hnil, hnormal⟩ := hv v (by simp)
    simp only [normalItems, hnil, hnormal, ih (i + 1) (fun w hw => hv w (by simp [hw])),
      List.length_cons, List.range'_succ, List.map_cons, List.zip_cons_cons]
    rfl

theorem normalMembers_settled (members : List (String × Value))
    (hv : ∀ e ∈ members, e.2.isNil = false ∧ e.2.normal = e.2) :
    normalMembers members = members := by
  induction members with
  | nil => simp [normalMembers]
  | cons e rest ih =>
    obtain ⟨hnil, hnormal⟩ := hv e (by simp)
    simp only [normalMembers, hnil, hnormal, ih (fun w hw => hv w (by simp [hw]))]
    rfl

theorem find_zip (keys : List String) (items : List Value) (hk : keys.Nodup)
    (hl : keys.length = items.length) :
    keys.map (fun key => (Dict.find? (keys.zip items) key).getD .nil) = items := by
  induction keys generalizing items with
  | nil => exact (List.length_eq_zero_iff.mp hl.symm).symm
  | cons k rest ih =>
    cases items with
    | nil => simp at hl
    | cons v items =>
      obtain ⟨hnew, hrest⟩ := List.nodup_cons.mp hk
      have htail := ih items hrest (by simpa using hl)
      have hother : rest.map (fun key => (Dict.find? ((k, v) :: rest.zip items) key).getD .nil) =
          rest.map fun key => (Dict.find? (rest.zip items) key).getD .nil := by
        apply List.map_congr_left
        intro key hkey
        rw [Dict.find?, if_neg fun h : k = key => hnew (h ▸ hkey)]
      simp only [List.zip_cons_cons, List.map_cons, hother, htail]
      simp [Dict.find?]

/-- A list whose items are there and settled is its own normal form. -/
theorem array_settled {items : List Value} (hv : ∀ v ∈ items, v.isNil = false ∧ v.normal = v) :
    (Value.array items).normal = .array items := by
  have hz : normalItems 1 items = (numerals items.length).zip items := normalItems_settled 1 items hv
  have hzl : ((numerals items.length).zip items).length = items.length := by simp [numerals_length]
  rw [normal, hz, tableForm, hzl, List.map_fst_zip (by simp), if_pos (.refl _),
    find_zip _ _ (numerals_nodup _) (numerals_length _)]

/-- So is a map with other keys than a list has. -/
theorem map_settled {members : List (String × Value)} (ho : Dict.Ordered members)
    (hk : ¬ (members.map (·.1)).Perm (numerals members.length))
    (hv : ∀ e ∈ members, e.2.isNil = false ∧ e.2.normal = e.2) :
    (Value.map members).normal = .map members := by
  rw [normal, normalMembers_settled members hv, tableForm, if_neg hk, Dict.ofList_of_ordered ho]

theorem tableForm_normal {entries : List (String × Value)} (hk : (entries.map (·.1)).Nodup)
    (hv : ∀ e ∈ entries, e.2.isNil = false ∧ e.2.normal = e.2) :
    (tableForm entries).normal = tableForm entries := by
  by_cases hp : (entries.map (·.1)).Perm (numerals entries.length)
  · rw [tableForm, if_pos hp]
    apply array_settled
    intro v hmem
    obtain ⟨e, he, rfl⟩ := mem_listed hk hp hmem
    exact hv e he
  · have hperm := Dict.ofList_perm entries hk
    have hkeys : ¬ ((Dict.ofList entries).map (·.1)).Perm (numerals (Dict.ofList entries).length) := by
      rw [hperm.length_eq]
      exact fun h => hp ((hperm.map (·.1)).symm.trans h)
    rw [tableForm, if_neg hp]
    exact map_settled (Dict.ofList_ordered entries) hkeys fun e he => hv e (Dict.mem_ofList he)

/-- A map with exactly the keys of a list, none of its members nil, becomes a list. -/
theorem map_listed {members : List (String × Value)} (hn : ∀ e ∈ members, e.2.isNil = false)
    (hk : (members.map (·.1)).Perm (numerals members.length)) (hs : members ≠ []) :
    ∃ item items, (Value.map members).normal = .array (item :: items) := by
  have hheld : held (.map members) = members :=
    List.filter_eq_self.mpr fun e he => by rw [hn e he]; rfl
  have hentries : normalMembers members = members.map fun e => (e.1, e.2.normal) := by
    rw [normalMembers_held, hheld]
  have hkeys : ((normalMembers members).map (·.1)).Perm (numerals (normalMembers members).length) := by
    rw [hentries, List.map_map, List.length_map]
    exact hk
  rw [normal, tableForm, if_pos hkeys, hentries, List.length_map]
  cases members with
  | nil => exact absurd rfl hs
  | cons e rest =>
    rw [List.length_cons, numerals, List.range'_succ, List.map_cons, List.map_cons]
    exact ⟨_, _, rfl⟩

theorem normal_normal {v : Value} (hw : WellFormed v) : v.normal.normal = v.normal := by
  induction hw with
  | array items hl hi ih =>
    rw [normal]
    apply tableForm_normal (normalItems_nodup 1 items)
    intro e he
    obtain ⟨v, hv, hnil, hnormal⟩ := mem_normalItems 1 items e he
    rw [hnormal]
    exact ⟨(normal_isNil v).trans hnil, ih v hv⟩
  | map members hl ho hm ih =>
    rw [normal]
    apply tableForm_normal (normalMembers_nodup ho)
    intro e he
    obtain ⟨m, hmem, hnil, hnormal⟩ := mem_normalMembers members e he
    rw [hnormal]
    exact ⟨(normal_isNil m.2).trans hnil, ih m hmem⟩
  | _ => simp only [normal]

theorem normal_wellFormed {v : Value} (hw : WellFormed v) : WellFormed v.normal := by
  induction hw with
  | array items hl hi ih =>
    rw [normal]
    apply tableForm_wellFormed (normalItems_nodup 1 items)
      (Nat.lt_of_le_of_lt (normalItems_length 1 items) hl)
    intro e he
    obtain ⟨v, hv, -, hnormal⟩ := mem_normalItems 1 items e he
    rw [hnormal]
    exact ih v hv
  | map members hl ho hm ih =>
    rw [normal]
    apply tableForm_wellFormed (normalMembers_nodup ho)
      (Nat.lt_of_le_of_lt (normalMembers_length members) hl)
    intro e he
    obtain ⟨m, hmem, -, hnormal⟩ := mem_normalMembers members e he
    rw [hnormal]
    exact ih m hmem
  | _ =>
    rw [normal]
    constructor

theorem normal_plain {v : Value} (hw : WellFormed v) (hf : v.holdsFunction = false) :
    v.normal.holdsFunction = false := by
  induction hw with
  | array items hl hi ih =>
    simp only [holdsFunction, itemsHoldFunction_iff] at hf
    rw [normal]
    apply tableForm_plain (normalItems_nodup 1 items)
    intro e he
    obtain ⟨v, hv, -, hnormal⟩ := mem_normalItems 1 items e he
    rw [hnormal]
    exact ih v hv (hf v hv)
  | map members hl ho hm ih =>
    simp only [holdsFunction, membersHoldFunction_iff] at hf
    rw [normal]
    apply tableForm_plain (normalMembers_nodup ho)
    intro e he
    obtain ⟨m, hmem, -, hnormal⟩ := mem_normalMembers members e he
    rw [hnormal]
    exact ih m hmem (hf m hmem)
  | _ => simpa only [normal] using hf

end ScriptHost.Value
