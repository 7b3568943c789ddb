import ScriptHost.Value.Text
import ScriptHost.Proofs.Json.Records
import ScriptHost.Proofs.Value.Normal

/-!
# Values as they are rendered

A value is rendered with a word in the place of each function, so as the value that has the word there.
What is rendered of a value that the host can hold has its members in order.
-/

set_option autoImplicit false

namespace ScriptHost.Value

mutual

def named : Value → Value
  | .function _ => .string "<function>"
  | .callable _ => .string "<function>"
  | .array items => .array (namedItems items)
  | .map members => .map (namedMembers members)
  | .nil => .nil
  | .bool b => .bool b
  | .int n => .int n
  | .float x => .float x
  | .string s => .string s

def namedItems : List Value → List Value
  | [] => []
  | v :: rest => v.named :: namedItems rest

def namedMembers : List (String × Value) → List (String × Value)
  | [] => []
  | (k, v) :: rest => (k, v.named) :: namedMembers rest

end

mutual

@[simp] theorem named_plain (v : Value) : v.named.holdsFunction = false := by
  match v with
  | .array items => exact namedItems_plain items
  | .map members => exact namedMembers_plain members
  | .nil | .bool _ | .int _ | .float _ | .string _ | .function _ | .callable _ => rfl

theorem namedItems_plain (items : List Value) : itemsHoldFunction (namedItems items) = false := by
  match items with
  | [] => rfl
  | v :: rest => rw [namedItems, itemsHoldFunction, named_plain v, namedItems_plain rest, Bool.or_self]

@[simp] theorem namedMembers_plain (members : List (String × Value)) :
    membersHoldFunction (namedMembers members) = false := by
  match members with
  | [] => rfl
  | (k, v) :: rest =>
    rw [namedMembers, membersHoldFunction, named_plain v, namedMembers_plain rest, Bool.or_self]

end

mutual

@[simp] theorem toJson_named (v : Value) : v.named.toJson = v.toJson := by
  match v with
  | .array items => rw [named, toJson, toJson, itemsJson_named items]
  | .map members => rw [named, toJson, toJson, membersJson_named members]
  | .nil | .bool _ | .int _ | .float _ | .string _ | .function _ | .callable _ => rfl

@[simp] theorem itemsJson_named (items : List Value) : itemsJson (namedItems items) = itemsJson items := by
  match items with
  | [] => rfl
  | v :: rest => rw [namedItems, itemsJson, itemsJson, toJson_named v, itemsJson_named rest]

@[simp] theorem membersJson_named (members : List (String × Value)) :
    membersJson (namedMembers members) = membersJson members := by
  match members with
  | [] => rfl
  | (k, v) :: rest => rw [namedMembers, membersJson, membersJson, toJson_named v, membersJson_named rest]

end

theorem itemsJson_eq (items : List Value) : itemsJson items = items.map toJson := by
  induction items with
  | nil => rfl
  | cons v rest ih => rw [itemsJson, ih, List.map_cons]

theorem membersJson_eq (members : List (String × Value)) :
    membersJson members = members.map fun e => (e.1, e.2.toJson) := by
  induction members with
  | nil => rfl
  | cons e rest ih => rw [membersJson, ih, List.map_cons]

theorem toJson_sorted {v : Value} (h : v.WellFormed) : v.toJson.sorted = v.toJson := by
  induction h with
  | nil | bool | int | string | function | callable => rfl
  | float x =>
    rw [toJson, Json.ofBinary]
    split <;> rfl
  | array items _ _ ih =>
    rw [toJson, itemsJson_eq, Json.sorted_arr, List.map_map]
    exact congrArg Json.arr (List.map_congr_left ih)
  | map members _ hordered _ ih =>
    have hmembers : (members.map fun e => (e.1, e.2.toJson)).map (fun e => (e.1, e.2.sorted)) =
        members.map fun e => (e.1, e.2.toJson) := by
      rw [List.map_map]
      exact List.map_congr_left fun e he => congrArg (e.1, ·) (ih e he)
    rw [toJson, membersJson_eq, Json.sorted_obj, hmembers, Dict.ofList_of_ordered]
    exact List.pairwise_map.mpr hordered

end ScriptHost.Value
