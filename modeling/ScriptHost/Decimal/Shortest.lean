import ScriptHost.Binary

/-!
# Decimal digits of a binary number

A positive binary number stands for the interval of reals that round to it.  `Decimal.shortest` is
the decimal with the fewest digits in that interval, and of those the nearest to the number itself;
`Decimal.rounded` has a fixed number of digits.  Both work in exact natural-number arithmetic on
`m * 2^q`, so nothing here depends on floating-point operations.
-/

set_option autoImplicit false

namespace ScriptHost

structure Decimal where
  digits : Nat
  scale : Int
deriving DecidableEq, Inhabited, Repr

inductive Tie where
  | toEven
  | up
deriving DecidableEq, Repr

namespace Decimal

def digitCount (n : Nat) : Nat := (Nat.toDigits 10 n).length

def strip : Nat → Decimal → Decimal
  | 0, d => d
  | fuel + 1, d =>
    if d.digits != 0 && d.digits % 10 == 0 then strip fuel ⟨d.digits / 10, d.scale + 1⟩ else d

def normal (d : Decimal) : Decimal :=
  if d.digits == 0 then ⟨0, 0⟩ else strip (digitCount d.digits) d

def magnitude (d : Decimal) : Int := (digitCount d.digits : Int) + d.scale - 1

/-- The reals that round to a positive number: `low / unit`, `value / unit` and `high / unit`, the
ends included when `closed`. -/
structure Cell where
  low : Nat
  value : Nat
  high : Nat
  unit : Nat
  closed : Bool
deriving Repr

def Cell.ofBinary (m : Nat) (q : Int) (atStep : Bool) : Cell :=
  -- the gap below is half the gap above where the exponent steps
  let up := Nat.pow 2 (q - 2).toNat
  { low := (4 * m - (if atStep then 1 else 2)) * up
    value := 4 * m * up
    high := (4 * m + 2) * up
    unit := Nat.pow 2 (2 - q).toNat
    closed := m % 2 == 0 }

def Cell.magnitude (c : Cell) : Int :=
  (digitCount (c.value * Nat.pow 10 400 / c.unit) : Int) - 401

def Cell.scaled (c : Cell) (k : Int) : Cell :=
  let up := Nat.pow 10 (-k).toNat
  { c with low := c.low * up, value := c.value * up, high := c.high * up,
           unit := c.unit * Nat.pow 10 k.toNat }

def Cell.nearest (c : Cell) (tie : Tie) : Nat :=
  let d := c.value / c.unit
  let r := c.value % c.unit
  let upward : Bool :=
    if 2 * r == c.unit then (match tie with | .up => true | .toEven => d % 2 == 1)
    else decide (c.unit < 2 * r)
  if upward then d + 1 else d

def Cell.holds (c : Cell) (d : Nat) : Bool :=
  let x := d * c.unit
  if c.closed then decide (c.low ≤ x ∧ x ≤ c.high) else decide (c.low < x ∧ x < c.high)

def Cell.pick? (c : Cell) (tie : Tie) : Option Nat :=
  -- the nearer of the value's two neighbours that the cell holds
  let n := c.nearest tie
  let d := c.value / c.unit
  if c.holds n then some n
  else if c.holds d then some d
  else if c.holds (d + 1) then some (d + 1)
  else none

def Cell.search (c : Cell) (tie : Tie) (e : Int) : Nat → Nat → Decimal
  -- the first of the grids of `n`, `n + 1`, … digits on which the cell has a point
  | 0, n => ⟨(c.scaled (e + 1 - n)).nearest tie, e + 1 - n⟩
  | more + 1, n =>
    match (c.scaled (e + 1 - n)).pick? tie with
    | some d => ⟨d, e + 1 - n⟩
    | none => c.search tie e more (n + 1)

def Cell.shortest (c : Cell) (tie : Tie) : Decimal :=
  (c.search tie c.magnitude 17 1).normal

def Cell.rounded (c : Cell) (tie : Tie) (n : Nat) : Decimal :=
  let k := c.magnitude + 1 - n
  normal ⟨(c.scaled k).nearest tie, k⟩

def cell64 (x : Binary64) : Cell :=
  .ofBinary x.mantissa x.exponent (x.fractionField == 0 && x.exponentField > 1)

def cell32 (x : Binary32) : Cell :=
  .ofBinary x.mantissa x.exponent (x.fractionField == 0 && x.exponentField > 1)

def shortest (x : Binary64) (tie : Tie) : Decimal :=
  if x.mantissa == 0 then ⟨0, 0⟩ else (cell64 x).shortest tie

def shortest32 (x : Binary32) (tie : Tie) : Decimal :=
  if x.mantissa == 0 then ⟨0, 0⟩ else (cell32 x).shortest tie

def rounded (x : Binary64) (n : Nat) : Decimal :=
  if x.mantissa == 0 then ⟨0, 0⟩ else (cell64 x).rounded .toEven n

end Decimal

end ScriptHost
