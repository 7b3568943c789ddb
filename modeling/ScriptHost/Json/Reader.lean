import ScriptHost.Json

/-!
# Reading JSON text

A recursive-descent reader over characters.  Each rule takes the number of characters left as fuel,
which the wrapper `Json.parse?` computes, so no call runs out of it.  A number literal keeps the
distinction of `Json`: without point and exponent it is an integer when it fits 64 bits, and `-0` is
the negative zero.
-/

set_option autoImplicit false

namespace ScriptHost

namespace Json

def isBlank (c : Char) : Bool := c = ' ' || c = '\t' || c = '\n' || c = '\r'

def skipBlanks (cs : List Char) : List Char := cs.dropWhile isBlank

def digitValue? (base : Nat) (c : Char) : Option Nat :=
  let v :=
    if '0' ≤ c && c ≤ '9' then c.toNat - '0'.toNat
    else if 'a' ≤ c && c ≤ 'z' then c.toNat - 'a'.toNat + 10
    else if 'A' ≤ c && c ≤ 'Z' then c.toNat - 'A'.toNat + 10
    else 99
  if v < base then some v else none

def natOfDigits (base : Nat) (cs : List Char) : Nat :=
  cs.foldl (fun n c => n * base + (digitValue? base c).getD 0) 0

def hex4? : List Char → Option (Nat × List Char)
  | a :: b :: c :: d :: rest =>
    if [a, b, c, d].all fun x => (digitValue? 16 x).isSome then
      some (natOfDigits 16 [a, b, c, d], rest)
    else none
  | _ => none

def stringBody : Nat → List Char → List Char → Option (String × List Char)
  | 0, _, _ => none
  | fuel + 1, acc, cs =>
    match cs with
    | '"' :: rest => some (String.ofList acc.reverse, rest)
    | '\\' :: 'u' :: rest =>
      match hex4? rest with
      | none => none
      | some (hi, rest) =>
        if 0xD800 ≤ hi && hi < 0xDC00 then
          match rest with
          | '\\' :: 'u' :: more =>
            match hex4? more with
            | some (lo, more) =>
              if 0xDC00 ≤ lo && lo < 0xE000 then
                stringBody fuel
                  (Char.ofNat (0x10000 + (hi - 0xD800) * 1024 + (lo - 0xDC00)) :: acc) more
              else none
            | none => none
          | _ => none
        else if 0xDC00 ≤ hi && hi < 0xE000 then none
        else stringBody fuel (Char.ofNat hi :: acc) rest
    | '\\' :: c :: rest =>
      let plain : Option Char :=
        if c = '"' || c = '\\' || c = '/' then some c
        else if c = 'b' then some (Char.ofNat 8)
        else if c = 'f' then some (Char.ofNat 12)
        else if c = 'n' then some '\n'
        else if c = 'r' then some '\r'
        else if c = 't' then some '\t'
        else none
      match plain with
      | some c => stringBody fuel (c :: acc) rest
      | none => none
    | c :: rest => if c.toNat < 32 then none else stringBody fuel (c :: acc) rest
    | [] => none

def isDigit (c : Char) : Bool := '0' ≤ c && c ≤ '9'

def significand : Nat → List Char → Nat × List Char
  | n, [] => (n, [])
  | n, c :: rest =>
    let next := n * 10 + (digitValue? 10 c).getD 0
    if next < UInt64.size then significand next rest else (n, c :: rest)

def scaled : Nat → Binary64 → Int → Binary64
  -- rounded after each operation; powers beyond the range are applied in steps, which `fuel` bounds
  | 0, x, _ => x
  | fuel + 1, x, e =>
    if e.natAbs ≤ 308 then
      let power := Binary64.ofDecimal 1 e.natAbs
      if 0 ≤ e then x.mul power else x.div power
    else if x.mantissa = 0 || 0 ≤ e then x
    else scaled fuel (x.div (.ofDecimal 1 308)) (e + 308)

def binaryOf (whole fraction : List Char) (exponent : Int) : Binary64 :=
  -- digits beyond the 64 bits of the significand only scale it
  let (n, spare) := significand 0 whole
  let (m, dropped) := significand n fraction
  let places := fraction.length - dropped.length
  scaled 8 (.ofInt m) (spare.length - places + exponent)

def number? (cs : List Char) : Option (Json × List Char) :=
  let (negative, cs) : Bool × List Char := match cs with
    | '-' :: rest => (true, rest)
    | _ => (false, cs)
  let whole := cs.takeWhile isDigit
  let cs := cs.dropWhile isDigit
  if whole.isEmpty then none
  else
    let (fraction, cs) : Option (List Char) × List Char := match cs with
      | '.' :: rest => (some (rest.takeWhile isDigit), rest.dropWhile isDigit)
      | _ => (none, cs)
    let (exponent, cs) : Option Int × List Char := match cs with
      | c :: rest =>
        if c = 'e' || c = 'E' then
          let (minus, rest) : Bool × List Char := match rest with
            | '-' :: rest => (true, rest)
            | '+' :: rest => (false, rest)
            | _ => (false, rest)
          let n : Int := natOfDigits 10 (rest.takeWhile isDigit)
          (some (if minus then -n else n), rest.dropWhile isDigit)
        else (none, cs)
      | [] => (none, cs)
    let x := binaryOf whole (fraction.getD []) (exponent.getD 0)
    let float : Json := .float (if negative then x.neg else x)
    match fraction, exponent with
    | none, none =>
      let n := natOfDigits 10 whole
      let isInteger := if negative then n != 0 && n ≤ Nat.pow 2 63 else n < UInt64.size
      let signed : Int := if negative then -(n : Int) else n
      some (if isInteger then .int signed else float, cs)
    | _, _ => some (float, cs)

def word? : List Char → List Char → Option (List Char)
  | [], cs => some cs
  | w :: ws, c :: cs => if w = c then word? ws cs else none
  | _ :: _, [] => none

mutual

def value? : Nat → List Char → Option (Json × List Char)
  | 0, _ => none
  | fuel + 1, cs =>
    match skipBlanks cs with
    | '"' :: rest => (stringBody (rest.length + 1) [] rest).map fun (s, rest) => (.str s, rest)
    | '[' :: rest =>
      match skipBlanks rest with
      | ']' :: rest => some (.arr [], rest)
      | rest => items? fuel [] rest
    | '\x7b' :: rest =>
      match skipBlanks rest with
      | '\x7d' :: rest => some (.obj [], rest)
      | rest => members? fuel [] rest
    | 't' :: rest => (word? "rue".toList rest).map (.bool true, ·)
    | 'f' :: rest => (word? "alse".toList rest).map (.bool false, ·)
    | 'n' :: rest => (word? "ull".toList rest).map (.null, ·)
    | cs => number? cs

def items? : Nat → List Json → List Char → Option (Json × List Char)
  | 0, _, _ => none
  | fuel + 1, acc, cs =>
    match value? fuel cs with
    | none => none
    | some (j, rest) =>
      match skipBlanks rest with
      | ',' :: rest => items? fuel (j :: acc) rest
      | ']' :: rest => some (.arr (j :: acc).reverse, rest)
      | _ => none

def members? : Nat → List (String × Json) → List Char → Option (Json × List Char)
  | 0, _, _ => none
  | fuel + 1, acc, cs =>
    match skipBlanks cs with
    | '"' :: rest =>
      match stringBody (rest.length + 1) [] rest with
      | none => none
      | some (k, rest) =>
        match skipBlanks rest with
        | ':' :: rest =>
          match value? fuel rest with
          | none => none
          | some (j, rest) =>
            match skipBlanks rest with
            | ',' :: rest => members? fuel ((k, j) :: acc) rest
            | '\x7d' :: rest => some (.obj (Dict.ofList ((k, j) :: acc).reverse), rest)
            | _ => none
        | _ => none
    | _ => none

end

def parse? (text : String) : Option Json :=
  let cs := text.toList
  match value? (cs.length + 1) cs with
  | some (j, rest) => if (skipBlanks rest).isEmpty then some j else none
  | none => none

end Json

end ScriptHost
