/-!
# Binary floating-point numbers

`Binary64` and `Binary32` hold the bits of an IEEE 754 number, so that two numbers are equal exactly
when their bits are.  Classification, sign, order, the exact integer behind a whole number and the pair
`m * 2^q` behind a finite one are read off the bits by natural-number arithmetic, and so is the number
nearest to a ratio (`Format.roundRatio`).  Only the arithmetic operations go through the machine's
floating-point unit; their invalid results are the quiet NaN with its sign bit set, and a NaN operand
is passed on as it is.
-/

set_option autoImplicit false

namespace ScriptHost

def roundDiv (num den : Nat) : Nat :=
  let d := num / den
  let r := 2 * (num % den)
  if den < r || (den == r && d % 2 == 1) then d + 1 else d

structure Format where
  fraction : Nat
  lowest : Int
  infinity : Nat

def Format.double : Format := ⟨52, -1074, 2047 * Nat.pow 2 52⟩

def Format.single : Format := ⟨23, -149, 255 * Nat.pow 2 23⟩

def Format.roundRatio (f : Format) (num den : Nat) : Nat :=
  -- with `q` the exponent of the last place, the bits of a normal and of a subnormal number alike
  -- are `(q - lowest) * 2^fraction` plus the rounded mantissa
  if num = 0 then 0
  else
    let guess : Int := (Nat.log2 num : Int) - Nat.log2 den
    let e := if num * Nat.pow 2 (-guess).toNat < den * Nat.pow 2 guess.toNat then guess - 1 else guess
    let q := max (e - f.fraction) f.lowest
    let m := roundDiv (num * Nat.pow 2 (-q).toNat) (den * Nat.pow 2 q.toNat)
    min ((q - f.lowest).toNat * Nat.pow 2 f.fraction + m) f.infinity

structure Binary64 where
  bits : UInt64
deriving DecidableEq, Hashable, Inhabited, Repr

structure Binary32 where
  bits : UInt32
deriving DecidableEq, Hashable, Inhabited, Repr

namespace Binary64

def exponentField (x : Binary64) : Nat := (x.bits >>> 52).toNat % 2048

def fractionField (x : Binary64) : Nat := x.bits.toNat % Nat.pow 2 52

def isNegative (x : Binary64) : Bool := x.bits >>> 63 == 1

def isFinite (x : Binary64) : Bool := x.exponentField != 2047

def isNaN (x : Binary64) : Bool := x.exponentField == 2047 && x.fractionField != 0

def isInfinite (x : Binary64) : Bool := x.exponentField == 2047 && x.fractionField == 0

def mantissa (x : Binary64) : Nat :=
  if x.exponentField == 0 then x.fractionField else x.fractionField + Nat.pow 2 52

def exponent (x : Binary64) : Int :=
  if x.exponentField == 0 then -1074 else (x.exponentField : Int) - 1075

def zero : Binary64 := ⟨0⟩

def infinity : Binary64 := ⟨0x7ff0000000000000⟩

def invalid : Binary64 := ⟨0xfff8000000000000⟩

def quietNaN : Binary64 := ⟨0x7ff8000000000000⟩

def toFloat (x : Binary64) : Float := Float.ofBits x.bits

def ofFloat (x : Float) : Binary64 := if x == x then ⟨x.toBits⟩ else invalid

def neg (x : Binary64) : Binary64 := ⟨x.bits ^^^ 0x8000000000000000⟩

def abs (x : Binary64) : Binary64 := ⟨x.bits &&& 0x7fffffffffffffff⟩

def lift₂ (f : Float → Float → Float) (x y : Binary64) : Binary64 :=
  if x.isNaN then x else if y.isNaN then y else ofFloat (f x.toFloat y.toFloat)

def lift₁ (f : Float → Float) (x : Binary64) : Binary64 :=
  if x.isNaN then x else ofFloat (f x.toFloat)

def add : Binary64 → Binary64 → Binary64 := lift₂ (· + ·)
def sub : Binary64 → Binary64 → Binary64 := lift₂ (· - ·)
def mul : Binary64 → Binary64 → Binary64 := lift₂ (· * ·)
def div : Binary64 → Binary64 → Binary64 := lift₂ (· / ·)
def floor : Binary64 → Binary64 := lift₁ Float.floor
def ceil : Binary64 → Binary64 := lift₁ Float.ceil
def sqrt : Binary64 → Binary64 := lift₁ Float.sqrt
def exp : Binary64 → Binary64 := lift₁ Float.exp
def log : Binary64 → Binary64 := lift₁ Float.log
def log2 : Binary64 → Binary64 := lift₁ Float.log2
def log10 : Binary64 → Binary64 := lift₁ Float.log10
def sin : Binary64 → Binary64 := lift₁ Float.sin
def cos : Binary64 → Binary64 := lift₁ Float.cos
def tan : Binary64 → Binary64 := lift₁ Float.tan
def asin : Binary64 → Binary64 := lift₁ Float.asin
def acos : Binary64 → Binary64 := lift₁ Float.acos
def sinh : Binary64 → Binary64 := lift₁ Float.sinh
def cosh : Binary64 → Binary64 := lift₁ Float.cosh
def tanh : Binary64 → Binary64 := lift₁ Float.tanh

def atan2 : Binary64 → Binary64 → Binary64 := lift₂ Float.atan2

def pow (x y : Binary64) : Binary64 :=
  -- anything to the power zero and one to any power are one
  if (y.toFloat == 0.0) || (x.toFloat == 1.0) then ofFloat 1.0 else lift₂ Float.pow x y

def rank (x : Binary64) : Int :=
  -- both zeros have place zero
  let magnitude : Int := (x.bits &&& 0x7fffffffffffffff).toNat
  if x.isNegative then -magnitude else magnitude

def beq (x y : Binary64) : Bool := !x.isNaN && !y.isNaN && x.rank == y.rank
def blt (x y : Binary64) : Bool := !x.isNaN && !y.isNaN && decide (x.rank < y.rank)
def ble (x y : Binary64) : Bool := !x.isNaN && !y.isNaN && decide (x.rank ≤ y.rank)

def toInt? (x : Binary64) : Option Int :=
  if !x.isFinite then none
  else
    let magnitude : Option Nat :=
      if 0 ≤ x.exponent then some (x.mantissa * Nat.pow 2 x.exponent.toNat)
      else
        let d := Nat.pow 2 (-x.exponent).toNat
        if x.mantissa % d == 0 then some (x.mantissa / d) else none
    magnitude.map fun m => if x.isNegative then -(m : Int) else (m : Int)

def ofRatio (negative : Bool) (num den : Nat) : Binary64 :=
  let x : Binary64 := ⟨UInt64.ofNat (Format.double.roundRatio num den)⟩
  if negative then x.neg else x

def ofInt (n : Int) : Binary64 := ofRatio (decide (n < 0)) n.natAbs 1

def ofDecimal (digits : Nat) (scale : Int) : Binary64 :=
  -- exponents far out of range are answered without raising ten to them
  if digits == 0 then zero
  else if scale > 400 then infinity
  else if -scale > 1200 + Nat.log2 digits then zero
  else ofRatio false (digits * Nat.pow 10 scale.toNat) (Nat.pow 10 (-scale).toNat)

def pi : Binary64 := ofDecimal 3141592653589793 (-15)

def ofBinary (mantissa : Nat) (exponent : Int) : Binary64 :=
  if mantissa == 0 then zero
  else if (Nat.log2 mantissa : Int) + exponent > 1100 then infinity
  else if (Nat.log2 mantissa : Int) + exponent < -1200 then zero
  else ofRatio false (mantissa * Nat.pow 2 exponent.toNat) (Nat.pow 2 (-exponent).toNat)

def compareInt (n : Int) (x : Binary64) : Ordering :=
  if x.isInfinite then if x.isNegative then .gt else .lt
  else
    let m : Int := if x.isNegative then -(x.mantissa : Int) else x.mantissa
    if 0 ≤ x.exponent then compare n (m * Nat.pow 2 x.exponent.toNat)
    else compare (n * Nat.pow 2 (-x.exponent).toNat) m

end Binary64

namespace Binary32

def exponentField (x : Binary32) : Nat := (x.bits >>> 23).toNat % 256

def fractionField (x : Binary32) : Nat := x.bits.toNat % Nat.pow 2 23

def isNegative (x : Binary32) : Bool := x.bits >>> 31 == 1

def isFinite (x : Binary32) : Bool := x.exponentField != 255

def mantissa (x : Binary32) : Nat :=
  if x.exponentField == 0 then x.fractionField else x.fractionField + Nat.pow 2 23

def exponent (x : Binary32) : Int :=
  if x.exponentField == 0 then -149 else (x.exponentField : Int) - 150

def zero : Binary32 := ⟨0⟩

def rank (x : Binary32) : Int :=
  let magnitude : Int := (x.bits &&& 0x7fffffff).toNat
  if x.isNegative then -magnitude else magnitude

def isNaN (x : Binary32) : Bool := x.exponentField == 255 && x.fractionField != 0

def blt (x y : Binary32) : Bool := !x.isNaN && !y.isNaN && decide (x.rank < y.rank)

def ofRatio (negative : Bool) (num den : Nat) : Binary32 :=
  let bits := UInt32.ofNat (Format.single.roundRatio num den)
  ⟨if negative then bits ^^^ 0x80000000 else bits⟩

def ofBinary64 (x : Binary64) : Binary32 :=
  -- a NaN keeps the head of its fraction
  if x.isFinite then
    ofRatio x.isNegative (x.mantissa * Nat.pow 2 x.exponent.toNat) (Nat.pow 2 (-x.exponent).toNat)
  else
    let magnitude : UInt32 :=
      if x.isNaN then 0x7fc00000 ||| UInt32.ofNat (x.fractionField / Nat.pow 2 29) else 0x7f800000
    ⟨if x.isNegative then magnitude ^^^ 0x80000000 else magnitude⟩

def toBinary64 (x : Binary32) : Binary64 :=
  if x.isFinite then
    .ofRatio x.isNegative (x.mantissa * Nat.pow 2 x.exponent.toNat) (Nat.pow 2 (-x.exponent).toNat)
  else
    let magnitude : UInt64 :=
      if x.isNaN then 0x7ff8000000000000 ||| UInt64.ofNat (x.fractionField * Nat.pow 2 29)
      else 0x7ff0000000000000
    ⟨if x.isNegative then magnitude ^^^ 0x8000000000000000 else magnitude⟩

def ofInt (n : Int) : Binary32 := ofRatio (decide (n < 0)) n.natAbs 1

end Binary32

end ScriptHost
