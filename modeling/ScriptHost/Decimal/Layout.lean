import ScriptHost.Decimal.Shortest

/-!
# Written decimals

Three layouts of a decimal are used: the number of a data file (`FloatStyle.write`), the display
text of a host value (`displayText`) and the text a script sees (`generalText`).  They differ only in
where the positional form ends, in the spelling of the exponent and in whether a point is kept.
-/

set_option autoImplicit false

namespace ScriptHost

namespace Decimal

def digitText (d : Decimal) : List Char := Nat.toDigits 10 d.digits

def zeros (n : Nat) : List Char := List.replicate n '0'

def positional (d : Decimal) (tail : List Char) : List Char :=
  let ds := d.digitText
  let point : Int := ds.length + d.scale
  if d.digits == 0 then '0' :: tail
  else if point ≤ 0 then '0' :: '.' :: zeros (-point).toNat ++ ds
  else if ds.length ≤ point.toNat then ds ++ zeros (point.toNat - ds.length) ++ tail
  else ds.take point.toNat ++ '.' :: ds.drop point.toNat

def scientific (d : Decimal) (width : Nat) : List Char :=
  let lead := match d.digitText with
    | [] => []
    | c :: [] => [c]
    | c :: rest => c :: '.' :: rest
  let e := d.magnitude
  let es := Nat.toDigits 10 e.natAbs
  lead ++ 'e' :: (if e < 0 then '-' else '+') :: zeros (width - es.length) ++ es

end Decimal

structure FloatStyle where
  lowest : Int
  highest : Int

def FloatStyle.double : FloatStyle := ⟨-5, 15⟩

def FloatStyle.single : FloatStyle := ⟨-6, 12⟩

def FloatStyle.write (style : FloatStyle) (negative : Bool) (d : Decimal) : String :=
  let body :=
    if d.digits == 0 || (style.lowest ≤ d.magnitude && d.magnitude ≤ style.highest) then
      d.positional ['.', '0']
    else d.scientific 1
  String.ofList (if negative then '-' :: body else body)

namespace Binary64

def serialized (x : Binary64) : String :=
  FloatStyle.double.write x.isNegative (Decimal.shortest x .toEven)

def displayText (x : Binary64) : String :=
  -- the display text: whole numbers below `10^16` keep one decimal, everything else is written with
  -- the shortest digits that read back, never with an exponent
  let signed (body : List Char) := String.ofList (if x.isNegative then '-' :: body else body)
  if x.isNaN then signed "nan".toList
  else if x.isInfinite then signed "inf".toList
  else match x.toInt? with
    | some n =>
      if n.natAbs < Nat.pow 10 16 then signed (Nat.toDigits 10 n.natAbs ++ ['.', '0'])
      else signed ((Decimal.shortest x .up).positional [])
    | none => signed ((Decimal.shortest x .up).positional [])

def generalText (x : Binary64) : String :=
  -- fourteen significant digits, positional while the exponent lies between -4 and 13; a text that
  -- looks like an integer gets `.0`
  let signed (body : List Char) := String.ofList (if x.isNegative then '-' :: body else body)
  if x.isNaN then signed "nan".toList
  else if x.isInfinite then signed "inf".toList
  else
    let d := Decimal.rounded x 14
    if d.digits == 0 || (-4 ≤ d.magnitude && d.magnitude < 14) then
      signed (d.positional ['.', '0'])
    else signed (d.scientific 2)

end Binary64

def Binary32.serialized (x : Binary32) : String :=
  FloatStyle.single.write x.isNegative (Decimal.shortest32 x .toEven)

end ScriptHost
