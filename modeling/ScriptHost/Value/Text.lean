import ScriptHost.Integer
import ScriptHost.Value
import ScriptHost.Json.Printer

/-!
# Text and JSON of values

`Value.display` is the text a value has in logs and templates, with tables and functions named only.
`Value.toJson` is total and writes functions as a word; `Value.serialize?` is the faithful form and
refuses them.  `Value.ofJson` reads either back: integers that fit are integers, every other number
is a binary one.
-/

set_option autoImplicit false

namespace ScriptHost

namespace Value

def display : Value → String
  | .nil => "nil"
  | .bool b => if b then "true" else "false"
  | .int n => toString n.toInt
  | .float x => x.displayText
  | .string s => s
  | .array _ => "table"
  | .map _ => "table"
  | .function _ => "function"
  | .callable _ => "function"

mutual

def toJson : Value → Json
  | .nil => .null
  | .bool b => .bool b
  | .int n => .int n.toInt
  | .float x => .ofBinary x
  | .string s => .str s
  | .array items => .arr (itemsJson items)
  | .map members => .obj (membersJson members)
  | .function _ => .str "<function>"
  | .callable _ => .str "<function>"

def itemsJson : List Value → List Json
  | [] => []
  | v :: rest => v.toJson :: itemsJson rest

def membersJson : List (String × Value) → List (String × Json)
  | [] => []
  | (k, v) :: rest => (k, v.toJson) :: membersJson rest

end

mutual

def serialize? : Value → Option Json
  | .nil => some .null
  | .bool b => some (.bool b)
  | .int n => some (.int n.toInt)
  | .float x => some (.ofBinary x)
  | .string s => some (.str s)
  | .array items => (serializeItems? items).map .arr
  | .map members => (serializeMembers? members).map .obj
  | .function _ => none
  | .callable _ => none

def serializeItems? : List Value → Option (List Json)
  | [] => some []
  | v :: rest =>
    match v.serialize?, serializeItems? rest with
    | some j, some js => some (j :: js)
    | _, _ => none

def serializeMembers? : List (String × Value) → Option (List (String × Json))
  | [] => some []
  | (k, v) :: rest =>
    match v.serialize?, serializeMembers? rest with
    | some j, some js => some ((k, j) :: js)
    | _, _ => none

end

def unserializable : String := "function values cannot be serialized"

def ofInt (n : Int) : Value :=
  -- the nearest number where the integer does not fit 64 bits
  match int64? n with
  | some i => .int i
  | none => .float (.ofInt n)

mutual

def ofJson : Json → Value
  | .null => .nil
  | .bool b => .bool b
  | .int n => ofInt n
  | .float x => .float x
  | .str s => .string s
  | .arr items => .array (ofJsonItems items)
  | .obj members => .map (ofJsonMembers members)

def ofJsonItems : List Json → List Value
  | [] => []
  | j :: rest => ofJson j :: ofJsonItems rest

def ofJsonMembers : List (String × Json) → List (String × Value)
  | [] => []
  | (k, j) :: rest => (k, ofJson j) :: ofJsonMembers rest

end

def render : Value → String
  | .array items => (Value.array items).toJson.pretty
  | .map members => (Value.map members).toJson.pretty
  | v => v.display

end Value

end ScriptHost
