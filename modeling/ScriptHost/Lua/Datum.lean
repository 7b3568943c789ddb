import ScriptHost.Text.Bytes
import ScriptHost.Integer
import ScriptHost.ScriptError
import ScriptHost.Lua.Numeral

/-!
# Data of a script

A `Datum` is what a script computes with.  Tables, functions, threads and the like are addresses or
serial numbers; what they stand for is in the heap.  `Datum.equals` is the equality of scripts, in
which an integer may equal a binary number; `Datum.key?` is the form of a datum as a table key, in
which equal keys are the same datum.
-/

set_option autoImplicit false

namespace ScriptHost.Lua

/-- An error of the host on its way through a script: every function of the host that it leaves wraps
it once. -/
inductive Failure where
  | raised (e : ScriptError)
  | through (cause : Failure)
deriving DecidableEq, Inhabited, Repr

def Failure.classify : Failure → ScriptError
  | .raised e => e.crossed
  | .through cause => cause.classify

inductive Datum where
  | nil
  | bool (b : Bool)
  | int (n : Int64)
  | float (x : Binary64)
  | string (s : ByteArray)
  | table (address : Nat)
  | function (address : Nat)
  | thread (cell : Nat)
  | userdata (serial : Nat)
  | failure (serial : Nat) (f : Failure)
deriving DecidableEq, Inhabited

namespace Datum

def text (s : String) : Datum := .string s.toUTF8

def isNil : Datum → Bool
  | .nil => true
  | _ => false

def isTruthy : Datum → Bool
  | .nil => false
  | .bool b => b
  | _ => true

def typeName : Datum → String
  | .nil => "nil"
  | .bool _ => "boolean"
  | .int _ => "number"
  | .float _ => "number"
  | .string _ => "string"
  | .table _ => "table"
  | .function _ => "function"
  | .thread _ => "thread"
  | .userdata _ => "userdata"
  | .failure _ _ => "userdata"

def hostTypeName : Datum → String
  | .nil => "nil"
  | .bool _ => "boolean"
  | .int _ => "integer"
  | .float _ => "number"
  | .string _ => "string"
  | .table _ => "table"
  | .function _ => "function"
  | .thread _ => "thread"
  | .userdata _ => "userdata"
  | .failure _ _ => "error"

def equals : Datum → Datum → Bool
  | .int n, .float x => x.toInt? == some n.toInt
  | .float x, .int n => x.toInt? == some n.toInt
  | .float x, .float y => x.beq y
  | a, b => a == b

def wholeInt64? (x : Binary64) : Option Int64 :=
  match x.toInt? with
  | some n => int64? n
  | none => none

def key? : Datum → Option Datum
  -- whole numbers become integers, and nil and NaN are no keys
  | .nil => none
  | .float x =>
    if x.isNaN then none
    else match wholeInt64? x with
      | some n => some (.int n)
      | none => some (.float x)
  | d => some d

end Datum

/-- How often one error was wrapped does not matter. -/
theorem Failure.classify_through (f : Failure) : (Failure.through f).classify = f.classify := rfl

end ScriptHost.Lua
