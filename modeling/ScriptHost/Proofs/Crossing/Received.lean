import ScriptHost.Proofs.Crossing.Return

/-!
# Host values that came from a script

What a host function receives for a table is the table written out.  Such a value reads the same on
every heap on which no table on the way was touched, holds a function only where the data does, and is
its own normal form unless a map in it has exactly the keys of a list.
-/

set_option autoImplicit false

namespace ScriptHost

/-- No map in the value has exactly the keys of a list, but for the empty one. -/
inductive Value.Unlisted : Value → Prop
  | nil : Unlisted .nil
  | bool (b : Bool) : Unlisted (.bool b)
  | int (n : Int64) : Unlisted (.int n)
  | float (x : Binary64) : Unlisted (.float x)
  | string (s : String) : Unlisted (.string s)
  | function (f : HostFn) : Unlisted (.function f)
  | callable (h : Handle) : Unlisted (.callable h)
  | array (items : List Value) (hi : ∀ v ∈ items, Unlisted v) : Unlisted (.array items)
  | map (members : List (String × Value))
      (hk : members ≠ [] → ¬ (members.map (·.1)).Perm (numerals members.length))
      (hm : ∀ e ∈ members, Unlisted e.2) : Unlisted (.map members)

namespace Crossing
open Lua Value

variable {h h' : Heap} {issued : Handle → Datum → Prop} {d : Datum} {v : Value}

/-- Only the tables on the way into a datum say what it is written out as. -/
theorem unfolds_frame (hu : Unfolds h issued d v)
    (hkept : ∀ a, Reaches h d (.table a) → (h'.table a).pairs = (h.table a).pairs) :
    Unfolds h' issued d v := by
  induction hu with
  | nil => exact .nil
  | bool b => exact .bool b
  | int n => exact .int n
  | float x => exact .float x
  | string s => exact .string s
  | function a handle hi => exact .function a handle hi
  | list a items hn hs hl _ ih =>
    have hat := hkept a .here
    refine .list a items (hat ▸ hn) (hat ▸ hs) (hat ▸ hl) ?_
    rw [hat]
    intro k e i he hi
    exact ih k e i he hi fun b hb => hkept b (reaches_head he hb)
  | map a members hn hs hl hk _ ih =>
    have hat := hkept a .here
    refine .map a members (hat ▸ hn) (hat ▸ hs) (hat ▸ hl) (hat ▸ hk) ?_
    rw [hat]
    intro p hp
    exact ih p hp fun b hb => hkept b (reaches_head (List.of_mem_zip hp).1 hb)

theorem unfolds_functionless (hu : Unfolds h issued d v) (hf : ∀ f, ¬ Reaches h d (.function f)) :
    Unfolds h NoHandle d v := by
  induction hu with
  | nil => exact .nil
  | bool b => exact .bool b
  | int n => exact .int n
  | float x => exact .float x
  | string s => exact .string s
  | function a handle _ => exact absurd .here (hf a)
  | list a items hn hs hl _ ih =>
    refine .list a items hn hs hl fun k e i he hi => ih k e i he hi ?_
    exact fun f hr => hf f (reaches_head he hr)
  | map a members hn hs hl hk _ ih =>
    refine .map a members hn hs hl hk fun p hp => ih p hp ?_
    exact fun f hr => hf f (reaches_head (List.of_mem_zip hp).1 hr)

/-- Every item of a list that was written out is under some index of the table. -/
theorem list_item {a : Nat} {items : List Value} (hn : ((h.table a).pairs.map (·.1)).Nodup)
    (hs : Sequential ((h.table a).pairs.map (·.1))) (hl : items.length = (h.table a).pairs.length)
    {w : Value} (hw : w ∈ items) :
    ∃ k e i, (k, e) ∈ (h.table a).pairs ∧ Table.index? k = some i ∧ items.getD (i - 1) .nil = w := by
  obtain ⟨j, hj, rfl⟩ := List.mem_iff_getElem.mp hw
  obtain ⟨k, hk, hidx⟩ := sequential_covers _ hn hs (j + 1) (by omega) (by simp; omega)
  obtain ⟨e, he, rfl⟩ := List.mem_map.mp hk
  refine ⟨e.1, e.2, j + 1, he, hidx, ?_⟩
  rw [Nat.add_sub_cancel, List.getD_eq_getElem?_getD, List.getElem?_eq_getElem hj, Option.getD_some]

theorem unfolds_holdsFunction (hu : Unfolds h NoHandle d v) : v.holdsFunction = false := by
  induction hu with
  | function a handle hi => exact hi.elim
  | list a items hn hs hl _ ih =>
    rw [holdsFunction, itemsHoldFunction_iff]
    intro w hw
    obtain ⟨k, e, i, he, hi, rfl⟩ := list_item hn hs hl hw
    exact ih k e i he hi
  | map a members hn hs hl hk _ ih =>
    rw [holdsFunction, membersHoldFunction_iff]
    intro e he
    obtain ⟨p, hp⟩ := zip_of_mem_right hl (Dict.mem_ofList he)
    exact ih (p, e) hp
  | _ => rfl

/-- The host can hold what was written out of tables whose sizes are 64-bit numbers. -/
theorem unfolds_wellFormed (hu : Unfolds h issued d v)
    (hsize : ∀ a, Reaches h d (.table a) → (h.table a).pairs.length < 2 ^ 63) : v.WellFormed := by
  induction hu with
  | nil => exact .nil
  | bool b => exact .bool b
  | int n => exact .int n
  | float x => exact .float x
  | string s => exact .string s
  | function a handle _ => exact .callable handle
  | list a items hn hs hl _ ih =>
    refine .array items (hl ▸ hsize a .here) fun w hw => ?_
    obtain ⟨k, e, i, he, hi, rfl⟩ := list_item hn hs hl hw
    exact ih k e i he hi fun b hb => hsize b (reaches_head he hb)
  | map a members hn hs hl hk _ ih =>
    have hsmall := hl ▸ hsize a .here
    refine .map _ (Nat.lt_of_le_of_lt (Dict.ofList_length members).1 hsmall)
      (Dict.ofList_ordered members) fun e he => ?_
    obtain ⟨p, hp⟩ := zip_of_mem_right hl (Dict.mem_ofList he)
    exact ih (p, e) hp fun b hb => hsize b (reaches_head (List.of_mem_zip hp).1 hb)

/-- What is in a table is not nil, and so is what it was written out as. -/
theorem entry_isNil {a : Nat} {e : Datum × Datum} {w : Value} (he : e ∈ (h.table a).pairs)
    (hu : Unfolds h issued e.2 w) : w.isNil = false :=
  (unfolds_isNil hu).trans ((h.table a).pairs_present he)

theorem unfolds_settled (hu : Unfolds h issued d v) (hv : v.Unlisted) : v.normal = v := by
  induction hu with
  | list a items hn hs hl hi ih =>
    cases hv with
    | array _ hitems =>
      apply array_settled
      intro w hw
      obtain ⟨k, e, i, he, hidx, heq⟩ := list_item hn hs hl hw
      have hnil := entry_isNil he (hi k e i he hidx)
      have hown := ih k e i he hidx
      rw [heq] at hnil hown
      exact ⟨hnil, hown (hitems w hw)⟩
  | map a members hn hs hl hk hm ih =>
    cases hv with
    | map _ hkeys hmembers =>
      have hsome : members ≠ [] := by
        rintro rfl
        have hnone : (h.table a).pairs = [] := List.length_eq_zero_iff.mp hl.symm
        exact hs (by simp [hnone, Sequential])
      have hthere : Dict.ofList members ≠ [] :=
        List.length_pos_iff.mp ((Dict.ofList_length members).2 (List.length_pos_iff.mpr hsome))
      apply map_settled (Dict.ofList_ordered members) (hkeys hthere)
      intro e he
      obtain ⟨p, hp⟩ := zip_of_mem_right hl (Dict.mem_ofList he)
      exact ⟨entry_isNil (List.of_mem_zip hp).1 (hm (p, e) hp), ih (p, e) hp (hmembers e he)⟩
  | _ => rw [normal]

theorem member_isNil {members : List (String × Value)} (hu : Unfolds h issued d (.map members)) :
    ∀ e ∈ members, e.2.isNil = false := by
  cases hu with
  | map a entries hn hs hl hk hm =>
    intro e he
    obtain ⟨p, hp⟩ := zip_of_mem_right hl (Dict.mem_ofList he)
    exact entry_isNil (List.of_mem_zip hp).1 (hm (p, e) hp)

def TextKeys (h : Heap) (a : Nat) : Prop := ∀ e ∈ (h.table a).pairs, ∃ t, e.1 = .string t

/-- A table with texts for keys is received as a map, an empty one as an empty list. -/
theorem textKeys_unfolds {a : Nat} (hk : TextKeys h a) (hu : Unfolds h issued (.table a) v) :
    (∃ members, v = .map members) ∨ v = .array [] := by
  cases hu with
  | map => exact .inl ⟨_, rfl⟩
  | list _ items hn hs hl _ =>
    right
    cases hpairs : (h.table a).pairs with
    | nil =>
      rw [hpairs] at hl
      rw [List.length_eq_zero_iff.mp hl]
    | cons e rest =>
      have he : e ∈ (h.table a).pairs := hpairs ▸ List.mem_cons_self
      obtain ⟨t, ht⟩ := hk e he
      obtain ⟨i, hi, -⟩ := sequential_index hs (List.mem_map.mpr ⟨e, he, rfl⟩)
      rw [ht] at hi
      simp [Table.index?] at hi

/-- A member of the map that was received is an entry of the table. -/
theorem textKeys_member {a : Nat} (hk : TextKeys h a) (hu : Unfolds h issued (.table a) v)
    {key : String} {w : Value} (hw : v.get? key = some w) :
    ∃ e, (.text key, e) ∈ (h.table a).pairs ∧ Unfolds h issued e w := by
  cases hu with
  | list => simp [Value.get?] at hw
  | map _ members hn hs hl hkeys hm =>
    obtain ⟨⟨k, e⟩, hp⟩ := zip_of_mem_right hl (Dict.mem_ofList (Dict.mem_of_find hw))
    have he := (List.of_mem_zip hp).1
    obtain ⟨t, rfl⟩ := hk (k, e) he
    have htext : textOf t = .ok key := hkeys _ hp
    obtain rfl := (textOf_iff t key).mp htext
    exact ⟨e, he, hm _ hp⟩

end Crossing

end ScriptHost
