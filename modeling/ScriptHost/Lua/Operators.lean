import ScriptHost.Lua.Coercion
import ScriptHost.Lua.Syntax

/-!
# Operators on numbers and strings

Integer arithmetic wraps at 64 bits; integer division and remainder go to the floor.  Comparison of an
integer with a binary number is exact.  Strings compare byte by byte.
-/

set_option autoImplicit false

namespace ScriptHost

namespace Binary64

def remainder (x y : Binary64) : Binary64 :=
  if x.isNaN then x
  else if y.isNaN then y
  else if x.isInfinite || y.mantissa == 0 && y.isFinite then invalid
  else if y.isInfinite then x
  else
    let q := min x.exponent y.exponent
    let m := x.mantissa * Nat.pow 2 (x.exponent - q).toNat
    let d := y.mantissa * Nat.pow 2 (y.exponent - q).toNat
    let r := ofBinary (m % d) q
    if x.isNegative then r.neg else r

def modulo (x y : Binary64) : Binary64 :=
  let r := remainder x y
  let wrongSide := if blt zero r then blt y zero else blt r zero && blt zero y
  if wrongSide then r.add y else r

end Binary64

namespace Lua

namespace Arithmetic

def event : Arithmetic → String
  | .add => "add"
  | .sub => "sub"
  | .mul => "mul"
  | .div => "div"
  | .mod => "mod"
  | .pow => "pow"
  | .idiv => "idiv"
  | .band => "band"
  | .bor => "bor"
  | .bxor => "bxor"
  | .shl => "shl"
  | .shr => "shr"

def isBitwise : Arithmetic → Bool
  | .band => true
  | .bor => true
  | .bxor => true
  | .shl => true
  | .shr => true
  | _ => false

end Arithmetic

def divisionByZero : String := "attempt to divide by zero"

def remainderByZero : String := "attempt to perform 'n%0'"

def shiftLeft (x : Int64) (amount : Int) : Int64 :=
  let bits := x.toUInt64.toNat
  if amount ≤ -64 ∨ 64 ≤ amount then 0
  else if amount < 0 then (UInt64.ofNat (bits / Nat.pow 2 (-amount).toNat)).toInt64
  else (UInt64.ofNat (bits * Nat.pow 2 amount.toNat)).toInt64

def integerOp (op : Arithmetic) (a b : Int64) : Except String Number :=
  match op with
  | .add => .ok (.int (a + b))
  | .sub => .ok (.int (a - b))
  | .mul => .ok (.int (a * b))
  | .idiv =>
    if b = 0 then .error divisionByZero else .ok (.int (Int64.ofInt (Int.fdiv a.toInt b.toInt)))
  | .mod =>
    if b = 0 then .error remainderByZero else .ok (.int (Int64.ofInt (Int.fmod a.toInt b.toInt)))
  | .div => .ok (.float ((Binary64.ofInt a.toInt).div (.ofInt b.toInt)))
  | .pow => .ok (.float ((Binary64.ofInt a.toInt).pow (.ofInt b.toInt)))
  | .band => .ok (.int (a &&& b))
  | .bor => .ok (.int (a ||| b))
  | .bxor => .ok (.int (a ^^^ b))
  | .shl => .ok (.int (shiftLeft a b.toInt))
  | .shr => .ok (.int (shiftLeft a (-b.toInt)))

def floatOp (op : Arithmetic) (x y : Binary64) : Binary64 :=
  match op with
  | .add => x.add y
  | .sub => x.sub y
  | .mul => x.mul y
  | .div => x.div y
  | .pow => x.pow y
  | .idiv => (x.div y).floor
  | .mod => x.modulo y
  | _ => .invalid

def numberOp (op : Arithmetic) : Number → Number → Except String Number
  | .int a, .int b => integerOp op a b
  | a, b => .ok (.float (floatOp op a.toFloat b.toFloat))

def bytesLess : List UInt8 → List UInt8 → Bool
  | _, [] => false
  | [], _ :: _ => true
  | a :: as, b :: bs => a < b || (a == b && bytesLess as bs)

namespace Number

def lt : Number → Number → Bool
  | .int a, .int b => a < b
  | .float x, .float y => x.blt y
  | .int a, .float y => !y.isNaN && Binary64.compareInt a.toInt y == .lt
  | .float x, .int b => !x.isNaN && Binary64.compareInt b.toInt x == .gt

def le : Number → Number → Bool
  | .int a, .int b => a ≤ b
  | .float x, .float y => x.ble y
  | .int a, .float y => !y.isNaN && Binary64.compareInt a.toInt y != .gt
  | .float x, .int b => !x.isNaN && Binary64.compareInt b.toInt x != .lt

def negate : Number → Number
  | .int n => .int (-n)
  | .float x => .float x.neg

end Number

def less? (orEqual : Bool) (a b : Datum) : Option Bool :=
  match a.number?, b.number? with
  | some m, some n => some (if orEqual then m.le n else m.lt n)
  | _, _ =>
    match a, b with
    | .string s, .string t =>
      some (if orEqual then !bytesLess t.toList s.toList else bytesLess s.toList t.toList)
    | _, _ => none

end Lua

end ScriptHost
