import ScriptHost.Dict
import ScriptHost.Binary

/-!
# JSON values

Integers and binary numbers are told apart, as their literals are: a literal without point and
exponent that fits 64 bits, signed or unsigned, is an integer.  Members of an object are ordered by
key.  A NaN or an infinity has no literal: `Json.ofBinary` makes it null.
-/

set_option autoImplicit false

namespace ScriptHost

inductive Json where
  | null
  | bool (b : Bool)
  | int (n : Int)
  | float (x : Binary64)
  | str (s : String)
  | arr (items : List Json)
  | obj (members : List (String × Json))
deriving Inhabited, Repr

namespace Json

def ofBinary (x : Binary64) : Json :=
  -- numbers without a literal become null
  if x.isFinite then .float x else .null

def isNull : Json → Bool
  | .null => true
  | _ => false

def get? : Json → String → Option Json
  | .obj members, key => Dict.find? members key
  | _, _ => none

def record (members : List (String × Option Json)) : Json :=
  .obj (members.filterMap fun e => e.2.map (e.1, ·))

mutual

def depth : Json → Nat
  | .arr items => itemsDepth items + 1
  | .obj members => membersDepth members + 1
  | .null => 0
  | .bool _ => 0
  | .int _ => 0
  | .float _ => 0
  | .str _ => 0

def itemsDepth : List Json → Nat
  | [] => 0
  | j :: rest => max j.depth (itemsDepth rest)

def membersDepth : List (String × Json) → Nat
  | [] => 0
  | (_, j) :: rest => max j.depth (membersDepth rest)

end

mutual

def sorted : Json → Json
  | .arr items => .arr (sortedItems items)
  | .obj members => .obj (Dict.ofList (sortedMembers members))
  | .null => .null
  | .bool b => .bool b
  | .int n => .int n
  | .float x => .float x
  | .str s => .str s

def sortedItems : List Json → List Json
  | [] => []
  | j :: rest => j.sorted :: sortedItems rest

def sortedMembers : List (String × Json) → List (String × Json)
  | [] => []
  | (k, j) :: rest => (k, j.sorted) :: sortedMembers rest

end

end Json

end ScriptHost
