import ScriptHost.Json.Reader

/-!
# Numerals

The text of a number in a script, and of a string that is used as one: an optional sign, a decimal or
hexadecimal integer or a number with point and exponent, blanks around it.  Hexadecimal integers wrap;
decimal ones that do not fit 64 bits are read as binary numbers.
-/

set_option autoImplicit false

namespace ScriptHost.Lua

inductive Number where
  | int (n : Int64)
  | float (x : Binary64)
deriving DecidableEq, Inhabited, Repr

namespace Numeral

def isSpace (c : Char) : Bool := c = ' ' || (9 ≤ c.toNat && c.toNat ≤ 13)

def trim (cs : List Char) : List Char :=
  (((cs.dropWhile isSpace).reverse).dropWhile isSpace).reverse

def isHex (c : Char) : Bool := (Json.digitValue? 16 c).isSome

def sign : List Char → Bool × List Char
  | '-' :: rest => (true, rest)
  | '+' :: rest => (false, rest)
  | cs => (false, cs)

def mantissa? (isDigit : Char → Bool) (cs : List Char) : Option (List Char × List Char × List Char) :=
  let whole := cs.takeWhile isDigit
  let rest := cs.dropWhile isDigit
  let (fraction, rest) : List Char × List Char := match rest with
    | '.' :: more => (more.takeWhile isDigit, more.dropWhile isDigit)
    | _ => ([], rest)
  if whole.isEmpty && fraction.isEmpty then none else some (whole, fraction, rest)

def exponent? (lower upper : Char) : List Char → Option Int
  | [] => some 0
  | c :: rest =>
    if c = lower || c = upper then
      let (negative, digits) := sign rest
      if digits.isEmpty || !digits.all Json.isDigit then none
      else
        let n : Int := Json.natOfDigits 10 digits
        some (if negative then -n else n)
    else none

def decimal? (cs : List Char) : Option Binary64 :=
  match mantissa? Json.isDigit cs with
  | none => none
  | some (whole, fraction, rest) =>
    (exponent? 'e' 'E' rest).map fun e =>
      .ofDecimal (Json.natOfDigits 10 (whole ++ fraction)) (e - fraction.length)

def hexadecimal? (cs : List Char) : Option Binary64 :=
  match mantissa? isHex cs with
  | none => none
  | some (whole, fraction, rest) =>
    (exponent? 'p' 'P' rest).map fun e =>
      .ofBinary (Json.natOfDigits 16 (whole ++ fraction)) (e - 4 * fraction.length)

def unsigned? (negative : Bool) (cs : List Char) : Option Number :=
  let binary (x : Binary64) : Number := .float (if negative then x.neg else x)
  let hex (rest : List Char) : Option Number :=
    if !rest.isEmpty && rest.all isHex then
      let n : Int := Json.natOfDigits 16 rest
      some (.int (Int64.ofInt (if negative then -n else n)))
    else (hexadecimal? rest).map binary
  match cs with
  | '0' :: 'x' :: rest => hex rest
  | '0' :: 'X' :: rest => hex rest
  | _ =>
    if !cs.isEmpty && cs.all Json.isDigit then
      let n := Json.natOfDigits 10 cs
      if n < Nat.pow 2 63 || (negative && n == Nat.pow 2 63) then
        some (.int (Int64.ofInt (if negative then -(n : Int) else n)))
      else (decimal? cs).map binary
    else (decimal? cs).map binary

def ofChars? (cs : List Char) : Option Number :=
  let (negative, rest) := sign (trim cs)
  unsigned? negative rest

end Numeral

end ScriptHost.Lua
