import ScriptHost.Lua.Library.Arguments

/-!
# The library of numbers
-/

set_option autoImplicit false

namespace ScriptHost.Lua

def FloatFn.apply (f : FloatFn) (x : Binary64) : Binary64 :=
  match f with
  | .acos => x.acos
  | .asin => x.asin
  | .cos => x.cos
  | .cosh => x.cosh
  | .deg => x.mul ((Binary64.ofInt 180).div .pi)
  | .exp => x.exp
  | .log10 => x.log10
  | .rad => x.mul (Binary64.pi.div (.ofInt 180))
  | .sin => x.sin
  | .sinh => x.sinh
  | .sqrt => x.sqrt
  | .tan => x.tan
  | .tanh => x.tanh

namespace Library

open Arguments

def wholeNumber (x : Binary64) : Datum :=
  match Datum.wholeInt64? x with
  | some n => .int n
  | none => .float x

def rounding (f : Binary64 → Binary64) (args : List Datum) : Checked (List Datum) := do
  match arg args 1 with
  | .int n => return [.int n]
  | _ => return [wholeNumber (f (← number args 1).toFloat)]

def absolute (args : List Datum) : Checked (List Datum) := do
  match arg args 1 with
  | .int n => return [.int (if n < 0 then -n else n)]
  | _ => return [.float (← number args 1).toFloat.abs]

def applied (f : FloatFn) (args : List Datum) : Checked (List Datum) := do
  return [.float (f.apply (← number args 1).toFloat)]

def arcTangent (args : List Datum) : Checked (List Datum) := do
  let y ← number args 1
  let x ← if (arg args 2).isNil then .ok (Number.int 1) else number args 2
  return [.float (y.toFloat.atan2 x.toFloat)]

def logarithm (args : List Datum) : Checked (List Datum) := do
  let x := (← number args 1).toFloat
  if (arg args 2).isNil then return [.float x.log]
  else
    let base := (← number args 2).toFloat
    return [.float (
      if base.beq (.ofInt 2) then x.log2
      else if base.beq (.ofInt 10) then x.log10
      else x.log.div base.log)]

def power (args : List Datum) : Checked (List Datum) := do
  let x ← number args 1
  let y ← number args 2
  return [.float (x.toFloat.pow y.toFloat)]

def fractionAndExponent (args : List Datum) : Checked (List Datum) := do
  let x := (← number args 1).toFloat
  if !x.isFinite || x.mantissa == 0 then return [.float x, .ofNat 0]
  else
    let width := Nat.log2 x.mantissa + 1
    let fraction := Binary64.ofBinary x.mantissa (-width)
    return [.float (if x.isNegative then fraction.neg else fraction), .int (Int64.ofInt (x.exponent + width))]

def scaled (args : List Datum) : Checked (List Datum) := do
  let x := (← number args 1).toFloat
  let e := Int.bmod (← integer args 2).toInt (Nat.pow 2 32)
  if !x.isFinite || x.mantissa == 0 then return [.float x]
  else
    let y := Binary64.ofBinary x.mantissa (x.exponent + e)
    return [.float (if x.isNegative then y.neg else y)]

def numberType (args : List Datum) : Checked (List Datum) := do
  match ← any args 1 with
  | .int _ => return [.text "integer"]
  | .float _ => return [.text "float"]
  | _ => return [.nil]

def toInteger (args : List Datum) : Checked (List Datum) := do
  match (arg args 1).toInt? with
  | some n => return [.int n]
  | none =>
    let _ ← any args 1
    return [.nil]

def unsignedLess (args : List Datum) : Checked (List Datum) := do
  let a ← integer args 1
  let b ← integer args 2
  return [.bool (a.toUInt64 < b.toUInt64)]

def truncatedRemainder (args : List Datum) : Checked (List Datum) := do
  match arg args 1, arg args 2 with
  | .int a, .int b =>
    if b = 0 then .error (.argument 2 "zero")
    else return [.int (Int64.ofInt (Int.tmod a.toInt b.toInt))]
  | _, _ =>
    let x ← number args 1
    let y ← number args 2
    return [.float (x.toFloat.remainder y.toFloat)]

def wholeAndRest (args : List Datum) : Checked (List Datum) := do
  match arg args 1 with
  | .int n => return [.float (.ofInt n.toInt), .float .zero]
  | _ =>
    let x := (← number args 1).toFloat
    let whole := if Binary64.blt x .zero then x.ceil else x.floor
    let rest := if whole.beq x then Binary64.zero else x.sub whole
    return [.float whole, .float rest]

end Library

end ScriptHost.Lua
