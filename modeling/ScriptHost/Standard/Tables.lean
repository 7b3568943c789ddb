import ScriptHost.Value.Text
import ScriptHost.ScriptError

/-!
# Copies and unions of tables

`Tables.deepCopy` takes a value through its JSON form, so functions are refused and numbers that have
no literal become nil.  `Tables.merge` is the union of tables in which the later argument wins; a list
counts as the map from the texts of its indices.
-/

set_option autoImplicit false

namespace ScriptHost

namespace Tables

def deepCopy (v : Value) : Except ScriptError Value :=
  match v.serialize? with
  | some j => .ok (.ofJson j)
  | none => .error (.runtime ("utils.deepCopy: " ++ Value.unserializable))

def indexed : Nat → List Value → List (String × Value)
  | _, [] => []
  | i, v :: rest => (toString i, v) :: indexed (i + 1) rest

def entries? : Value → Option (List (String × Value))
  | .nil => some []
  | .map members => some members
  | .array items => some (indexed 1 items)
  | _ => none

def mergeOnto (merged : Dict Value) : Nat → List Value → Except ScriptError (Dict Value)
  | _, [] => .ok merged
  | position, v :: rest =>
    match entries? v with
    | some es => mergeOnto (Dict.override merged es) (position + 1) rest
    | none =>
      .error (.runtime ("utils.merge: argument " ++ toString position ++ " is a " ++ v.typeName
        ++ ", expected a table"))

def merge (args : List Value) : Except ScriptError Value := (mergeOnto [] 1 args).map .map

end Tables

end ScriptHost
