import ScriptHost.Lua.Step

/-!
# Arguments of library functions

How a function of the library was called, how it reads its arguments, and how it complains about
them.  A complaint about an argument names the function as its caller did; the object of a method call
does not count as an argument then.
-/

set_option autoImplicit false

namespace ScriptHost.Lua

inductive ThreadStatus where
  | suspended
  | running
  | normal
  | dead
  | foreign
deriving DecidableEq, Inhabited, Repr

structure Caller where
  naming : Option Naming
  level : Nat → Option Place
  running : Option Nat
  yields : Bool
  status : Nat → ThreadStatus

inductive Complaint where
  | argument (n : Nat) (message : String)
  | failure (message : String)
deriving DecidableEq, Inhabited, Repr

def Complaint.text (own : String) (naming : Option Naming) : Complaint → ByteArray
  | .failure message => message.toUTF8
  | .argument n message =>
    let about (n : Nat) (name : ByteArray) : ByteArray :=
      ("bad argument #" ++ toString n ++ " to '").toUTF8 ++ name ++ ("' (" ++ message ++ ")").toUTF8
    match naming with
    | none => about n own.toUTF8
    | some naming =>
      if naming.kind = "method" then
        if n = 1 then
          "calling '".toUTF8 ++ naming.name ++ ("' on bad self (" ++ message ++ ")").toUTF8
        else about (n - 1) naming.name
      else about n naming.name

def Complaint.throw (c : Complaint) (own : String) (caller : Caller) (h : Heap) : Step :=
  raiseBytes (caller.level 1) (c.text own caller.naming) h

namespace Arguments

abbrev Checked (α : Type) := Except Complaint α

def arg (args : List Datum) (n : Nat) : Datum := args.getD (n - 1) .nil

def isGiven (args : List Datum) (n : Nat) : Bool := n ≤ args.length

def typeText (args : List Datum) (n : Nat) : String :=
  if isGiven args n then (arg args n).typeName else "no value"

def wrongType {α : Type} (args : List Datum) (n : Nat) (expected : String) : Checked α :=
  .error (.argument n (expected ++ " expected, got " ++ typeText args n))

def any (args : List Datum) (n : Nat) : Checked Datum :=
  if isGiven args n then .ok (arg args n) else .error (.argument n "value expected")

def number (args : List Datum) (n : Nat) : Checked Number :=
  match (arg args n).toNumber? with
  | some x => .ok x
  | none => wrongType args n "number"

def integer (args : List Datum) (n : Nat) : Checked Int64 :=
  match (arg args n).toInt? with
  | some i => .ok i
  | none =>
    if (arg args n).toNumber?.isSome then
      .error (.argument n "number has no integer representation")
    else wrongType args n "number"

def integerOr (args : List Datum) (n : Nat) (absent : Int64) : Checked Int64 :=
  if (arg args n).isNil then .ok absent else integer args n

def bytes (args : List Datum) (n : Nat) : Checked ByteArray :=
  match (arg args n).toBytes? with
  | some s => .ok s
  | none => wrongType args n "string"

def bytesOr (args : List Datum) (n : Nat) (absent : ByteArray) : Checked ByteArray :=
  if (arg args n).isNil then .ok absent else bytes args n

def table (args : List Datum) (n : Nat) : Checked Nat :=
  match arg args n with
  | .table a => .ok a
  | _ => wrongType args n "table"

def function (args : List Datum) (n : Nat) : Checked Datum :=
  match arg args n with
  | .function a => .ok (.function a)
  | _ => wrongType args n "function"

end Arguments

end ScriptHost.Lua
