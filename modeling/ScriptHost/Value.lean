import ScriptHost.Graph.ScriptNode

/-!
# Host values

A `Value` is what the host and a script exchange.  Plain data is held as it is.  A script's function
stays inside the interpreter; the host holds a `Handle` to it, the name of the session that issued it
and a slot in that session's table of pinned functions.  A host function is named by a `HostFn`: one of
the standard functions, the emitter of one script-node invocation, or a function that the embedding
program supplies, told apart by a serial number.
-/

set_option autoImplicit false

namespace ScriptHost

/-- One opening of a bridge.  No two openings have the same name. -/
structure SessionId where
  bridge : Nat
  opening : Nat
deriving DecidableEq, Hashable, Inhabited, Repr

structure Handle where
  session : SessionId
  slot : Nat
deriving DecidableEq, Hashable, Inhabited, Repr

inductive StandardFn where
  | log
  | componentTags
  | componentInfo
  | deepCopy
  | merge
  | format
  | stateGet
  | stateSet
  | stateAll
  | stateClear
  | component (tag : String)
  | emitter (node : ScriptNode) (sink : Nat)
deriving DecidableEq, Inhabited, Repr

inductive HostFn where
  | standard (f : StandardFn)
  | custom (name : String) (serial : Nat)
deriving DecidableEq, Inhabited, Repr

inductive Value where
  | nil
  | bool (b : Bool)
  | int (n : Int64)
  | float (x : Binary64)
  | string (s : String)
  -- a table whose keys are `1` to its length
  | array (items : List Value)
  -- any other table, its keys written as text, in order
  | map (members : List (String × Value))
  | function (f : HostFn)
  | callable (h : Handle)
deriving Inhabited

namespace Value

def typeName : Value → String
  | .nil => "nil"
  | .bool _ => "boolean"
  | .int _ => "integer"
  | .float _ => "number"
  | .string _ => "string"
  | .array _ => "array"
  | .map _ => "map"
  | .function _ => "function"
  | .callable _ => "function"

def isNil : Value → Bool
  | .nil => true
  | _ => false

def isTruthy : Value → Bool
  | .nil => false
  | .bool b => b
  | _ => true

def isEmptyTable : Value → Bool
  -- an empty table is neither list nor map yet
  | .array items => items.isEmpty
  | .map members => members.isEmpty
  | _ => false

def get? : Value → String → Option Value
  | .map members, key => Dict.find? members key
  | _, _ => none

def strings (items : List String) : Value := .array (items.map .string)

mutual

def holdsFunction : Value → Bool
  | .function _ => true
  | .callable _ => true
  | .array items => itemsHoldFunction items
  | .map members => membersHoldFunction members
  | .nil => false
  | .bool _ => false
  | .int _ => false
  | .float _ => false
  | .string _ => false

def itemsHoldFunction : List Value → Bool
  | [] => false
  | v :: rest => v.holdsFunction || itemsHoldFunction rest

def membersHoldFunction : List (String × Value) → Bool
  | [] => false
  | (_, v) :: rest => v.holdsFunction || membersHoldFunction rest

end

mutual

def handles : Value → List Handle
  | .callable h => [h]
  | .array items => itemHandles items
  | .map members => memberHandles members
  | .nil => []
  | .bool _ => []
  | .int _ => []
  | .float _ => []
  | .string _ => []
  | .function _ => []

def itemHandles : List Value → List Handle
  | [] => []
  | v :: rest => v.handles ++ itemHandles rest

def memberHandles : List (String × Value) → List Handle
  | [] => []
  | (_, v) :: rest => v.handles ++ memberHandles rest

end

mutual

def beq : Value → Value → Bool
  -- a NaN differs from itself, and functions are compared by identity
  | .nil, .nil => true
  | .bool a, .bool b => a == b
  | .int a, .int b => a == b
  | .float a, .float b => a.beq b
  | .string a, .string b => a == b
  | .array a, .array b => itemsBeq a b
  | .map a, .map b => membersBeq a b
  | .function f, .function g => f == g
  | .callable h, .callable k => h == k
  | _, _ => false

def itemsBeq : List Value → List Value → Bool
  | [], [] => true
  | v :: vs, w :: ws => v.beq w && itemsBeq vs ws
  | _, _ => false

def membersBeq : List (String × Value) → List (String × Value) → Bool
  | [], [] => true
  | (k, v) :: vs, (l, w) :: ws => k == l && v.beq w && membersBeq vs ws
  | _, _ => false

end

end Value

end ScriptHost
