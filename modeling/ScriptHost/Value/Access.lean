import ScriptHost.Value
import ScriptHost.ScriptError

/-!
# Typed access to values

Each accessor answers the content of a value of its kind, and names the kind it found otherwise.
Integers read as numbers, and whole numbers as integers, those out of range as the nearest one.
-/

set_option autoImplicit false

namespace ScriptHost

namespace Value

def mismatch (v : Value) (expected : String) : ScriptError := .typeMismatch expected v.typeName

def asBool : Value → Except ScriptError Bool
  | .bool b => .ok b
  | v => .error (v.mismatch "boolean")

def clamp (n : Int) : Int64 :=
  Int64.ofInt (max Int64.minValue.toInt (min n Int64.maxValue.toInt))

def asInt : Value → Except ScriptError Int64
  | .int n => .ok n
  | .float x =>
    match x.toInt? with
    | some n => .ok (clamp n)
    | none => .error ((Value.float x).mismatch "integer")
  | v => .error (v.mismatch "integer")

def asFloat : Value → Except ScriptError Binary64
  | .float x => .ok x
  | .int n => .ok (.ofInt n.toInt)
  | v => .error (v.mismatch "number")

def asString : Value → Except ScriptError String
  | .string s => .ok s
  | v => .error (v.mismatch "string")

def asArray : Value → Except ScriptError (List Value)
  | .array items => .ok items
  | v => .error (v.mismatch "array")

def asMap : Value → Except ScriptError (Dict Value)
  | .map members => .ok members
  | v => .error (v.mismatch "map")

def asCallable : Value → Except ScriptError Handle
  | .callable h => .ok h
  | v => .error (v.mismatch "function")

end Value

end ScriptHost
