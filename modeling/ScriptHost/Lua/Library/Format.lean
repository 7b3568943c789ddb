import ScriptHost.Lua.Library.Text

/-!
# Formatted strings

A format is plain text with items in it; an item has flags, a width, a precision and a letter, and takes
the next argument.  A malformed item ends a format in a fault, which fails only when it is come to.  Binary
numbers are written exactly: their digits are those of the nearest decimal with so many of them, a half
going to the even one.
-/

set_option autoImplicit false

namespace ScriptHost.Lua.Library

namespace Formatting

structure Item where
  text : List Char
  left : Bool
  plus : Bool
  space : Bool
  alternate : Bool
  zero : Bool
  width : Nat
  precision : Option Nat
  letter : Char

def isFlag (c : Char) : Bool := "-+ #0".toList.contains c

def twoDigits : List Char → List Char × List Char
  | a :: b :: rest =>
    if a.isDigit then (if b.isDigit then ([a, b], rest) else ([a], b :: rest)) else ([], a :: b :: rest)
  | [a] => if a.isDigit then ([a], []) else ([], [a])
  | [] => ([], [])

def readItem (cs : List Char) : Except String (Item × List Char) :=
  let part (c : Char) : Bool := isFlag c || c.isDigit || c == '.'
  let head := cs.takeWhile part
  if 21 ≤ head.length then .error "invalid format string to 'format'"
  else match cs.dropWhile part with
    | [] => .error ("invalid conversion '%" ++ String.ofList head ++ "' to 'format'")
    | letter :: rest =>
      let flags := head.takeWhile isFlag
      let (width, more) := twoDigits (head.dropWhile isFlag)
      let precision := match more with
        | '.' :: digits => some (Json.natOfDigits 10 (twoDigits digits).1)
        | _ => none
      .ok (⟨'%' :: (head ++ [letter]), flags.contains '-', flags.contains '+', flags.contains ' ',
        flags.contains '#', flags.contains '0', Json.natOfDigits 10 width, precision, letter⟩, rest)

inductive Piece where
  | plain (c : Char)
  | item (f : Item)
  | fault (message : String)

def readPieces : Nat → List Char → List Piece
  | 0, _ => []
  | _, [] => []
  | fuel + 1, '%' :: '%' :: rest => .plain '%' :: readPieces fuel rest
  | fuel + 1, '%' :: cs =>
    match readItem cs with
    | .ok (f, rest) => .item f :: readPieces fuel rest
    | .error message => [.fault message]
  | fuel + 1, c :: rest => .plain c :: readPieces fuel rest

def read (cs : List Char) : List Piece := readPieces cs.length cs

def Item.fits (f : Item) (flags : String) (precise : Bool) : Bool :=
  let spec := (f.text.drop 1).dropWhile flags.toList.contains
  let rest := if spec.head? == some '0' then spec
    else match (twoDigits spec).2 with
      | '.' :: digits => if precise then (twoDigits digits).2 else '.' :: digits
      | rest => rest
  match rest.head? with
  | some c => c.isAlpha
  | none => false

def Item.check (f : Item) (flags : String) (precise : Bool) : Except String Unit :=
  if f.fits flags precise then .ok ()
  else .error ("invalid conversion specification: '" ++ String.ofList f.text ++ "'")

def Item.pad (f : Item) (zeros : Bool) (sign body : List Char) : List Char :=
  let gap := f.width - (sign.length + body.length)
  if f.left then sign ++ body ++ List.replicate gap ' '
  else if zeros then sign ++ List.replicate gap '0' ++ body
  else List.replicate gap ' ' ++ sign ++ body

def Item.sign (f : Item) (negative : Bool) : List Char :=
  if negative then ['-'] else if f.plus then ['+'] else if f.space then [' '] else []

def Item.digits (f : Item) (base n : Nat) : List Char :=
  let ds := if n = 0 && f.precision == some 0 then [] else Nat.toDigits base n
  List.replicate (f.precision.getD 1 - ds.length) '0' ++ ds

def Item.integer (f : Item) (n : Int64) : List Char :=
  let zeros := f.zero && f.precision.isNone
  let upper (cs : List Char) : List Char := if f.letter == 'X' then cs.map Char.toUpper else cs
  let bits := n.toUInt64.toNat
  match f.letter with
  | 'o' =>
    let ds := f.digits 8 bits
    f.pad zeros [] (if f.alternate && ds.head? != some '0' then '0' :: ds else ds)
  | 'u' => f.pad zeros [] (f.digits 10 bits)
  | 'x' => f.pad zeros (if f.alternate && bits != 0 then ['0', 'x'] else []) (f.digits 16 bits)
  | 'X' => f.pad zeros (if f.alternate && bits != 0 then ['0', 'X'] else []) (upper (f.digits 16 bits))
  | _ => f.pad zeros (f.sign (n < 0)) (f.digits 10 n.toInt.natAbs)

def pointed (ds : List Char) (places : Nat) (keep : Bool) : List Char :=
  let ds := List.replicate (places + 1 - ds.length) '0' ++ ds
  let whole := ds.take (ds.length - places)
  if places = 0 then (if keep then whole ++ ['.'] else whole) else whole ++ '.' :: ds.drop (ds.length - places)

def fixed (x : Binary64) (places : Nat) (keep : Bool) : List Char :=
  let n := roundDiv (x.mantissa * Nat.pow 2 x.exponent.toNat * Nat.pow 10 places)
    (Nat.pow 2 (-x.exponent).toNat)
  pointed (Nat.toDigits 10 n) places keep

def scientific (x : Binary64) (places : Nat) (keep : Bool) : List Char :=
  let d := Decimal.rounded x (places + 1)
  let ds := d.digitText ++ List.replicate (places + 1 - d.digitText.length) '0'
  let e := if d.digits = 0 then 0 else d.magnitude
  let es := Nat.toDigits 10 e.natAbs
  pointed ds places keep ++ 'e' :: (if e < 0 then '-' else '+') :: List.replicate (2 - es.length) '0' ++ es

def stripped (cs : List Char) : List Char :=
  let tail := cs.dropWhile (· != 'e')
  let ds := cs.takeWhile (· != 'e')
  if ds.contains '.' then
    ((ds.reverse.dropWhile (· == '0')).dropWhile (· == '.')).reverse ++ tail
  else cs

def general (x : Binary64) (precision : Nat) (keep : Bool) : List Char :=
  -- with an exponent where the number is very small or has more digits before the point
  let p := max precision 1
  let d := Decimal.rounded x p
  let e := if d.digits = 0 then 0 else d.magnitude
  let body := if -4 ≤ e ∧ e < p then fixed x ((p : Int) - 1 - e).toNat keep else scientific x (p - 1) keep
  if keep then body else stripped body

def hexadecimal (x : Binary64) (precision : Option Nat) (keep : Bool) : List Char :=
  -- without a precision it is exact
  let e : Int := if x.mantissa = 0 then 0 else x.exponent + 52
  let exact := (Nat.toDigits 16 x.mantissa)
  let ds : List Char := match precision with
    | none =>
      let all := List.replicate (14 - exact.length) '0' ++ exact
      match (all.reverse.dropWhile (· == '0')).reverse with
      | [] => ['0']
      | ds => ds
    | some places =>
      let scaled := if places < 13 then roundDiv x.mantissa (Nat.pow 16 (13 - places))
        else x.mantissa * Nat.pow 16 (places - 13)
      let ds := Nat.toDigits 16 scaled
      List.replicate (places + 1 - ds.length) '0' ++ ds
  pointed ds (ds.length - 1) keep ++ 'p' :: (if e < 0 then '-' else '+') :: Nat.toDigits 10 e.natAbs

def Item.binary (f : Item) (x : Binary64) : List Char :=
  let upper (cs : List Char) : List Char := if f.letter.isUpper then cs.map Char.toUpper else cs
  let sign := f.sign x.isNegative
  if x.isNaN then f.pad false sign (upper "nan".toList)
  else if x.isInfinite then f.pad false sign (upper "inf".toList)
  else match f.letter.toLower with
    | 'a' => f.pad f.zero (sign ++ upper ['0', 'x']) (upper (hexadecimal x f.precision f.alternate))
    | 'e' => f.pad f.zero sign (upper (scientific x (f.precision.getD 6) f.alternate))
    | 'f' => f.pad f.zero sign (fixed x (f.precision.getD 6) f.alternate)
    | _ => f.pad f.zero sign (upper (general x (f.precision.getD 6) f.alternate))

def quoted : List UInt8 → List Char
  | [] => []
  | b :: rest =>
    let c := Char.ofNat b.toNat
    let escaped : List Char :=
      if c == '"' || c == '\\' || c == '\n' then ['\\', c]
      else if b < 32 || b == 127 then
        let ds := Nat.toDigits 10 b.toNat
        let nextIsDigit := rest.head?.any fun b => 48 ≤ b && b ≤ 57
        '\\' :: (if nextIsDigit then List.replicate (3 - ds.length) '0' ++ ds else ds)
      else [c]
    escaped ++ quoted rest

def literal : Datum → Option (List Char)
  | .string s => some ('"' :: quoted s.toList ++ ['"'])
  | .int n =>
    some (if n = Int64.minValue then "0x8000000000000000".toList else (toString n.toInt).toList)
  | .float x =>
    some (
      if x.isNaN then "(0/0)".toList
      else if x.isInfinite then (if x.isNegative then "-1e9999" else "1e9999").toList
      else (if x.isNegative then ['-'] else []) ++ ['0', 'x'] ++ hexadecimal x none false)
  | .nil => some "nil".toList
  | .bool b => some (toString b).toList
  | _ => none

end Formatting

open Arguments Formatting

def latin (cs : List Char) : ByteArray := (cs.map fun c => UInt8.ofNat c.toNat).toByteArray

def formatted (f : Item) (args : List Datum) (n : Nat) : Checked (List Char) :=
  let checked (flags : String) (precise : Bool) : Checked Unit :=
    (f.check flags precise).mapError .failure
  match f.letter with
  | 'c' => do
    checked "-" false
    let i ← integer args n
    return f.pad false [] [Char.ofNat (i.toUInt64.toNat % 256)]
  | 'd' => do
    let i ← integer args n
    checked "-+0 " true
    return f.integer i
  | 'i' => do
    let i ← integer args n
    checked "-+0 " true
    return f.integer i
  | 'u' => do
    let i ← integer args n
    checked "-0" true
    return f.integer i
  | 'q' =>
    if f.text.length ≠ 2 then .error (.failure "specifier '%q' cannot have modifiers")
    else match literal (arg args n) with
      | some cs => .ok cs
      | none => .error (.argument n "value has no literal form")
  | 'p' => do
    checked "-" false
    let text : List Char := match arg args n with
      | .table a => pointer a
      | .function a => pointer a
      | .thread a => pointer a
      | .userdata a => pointer a
      | .failure a _ => pointer a
      | .string _ => pointer 0
      | _ => "(null)".toList
    return f.pad false [] text
  | letter =>
    if "oxX".toList.contains letter then do
      let i ← integer args n
      checked "-#0" true
      return f.integer i
    else if letter == 'a' || letter == 'A' then do
      checked "-+#0 " true
      return f.binary (← number args n).toFloat
    else if "efgEG".toList.contains letter then do
      let x ← number args n
      checked "-+#0 " true
      return f.binary x.toFloat
    else .error (.failure ("invalid conversion '" ++ String.ofList f.text ++ "' to 'format'"))
where
  pointer (a : Nat) : List Char := "0x".toList ++ Nat.toDigits 16 (0x55550000 + 32 * a)

def formattedText (f : Item) (n : Nat) (s : ByteArray) : Checked ByteArray :=
  -- a long text without a precision stays as it is
  if f.text.length = 2 then .ok s
  else if s.toList.contains 0 then .error (.argument n "string contains zeros")
  else do
    (f.check "-" true).mapError .failure
    match f.precision with
    | none => if 100 ≤ s.size then return s else return latin (f.pad false [] (byteChars s))
    | some p => return latin (f.pad false [] ((byteChars s).take p))

def formatAll (args : List Datum) (caller : Caller) (wrong : Complaint → Heap → Step) :
    List Piece → Nat → ByteArray → Heap → Step
  | [], _, acc, h => build acc (fun d h => .finish [d] h) h
  | .plain c :: rest, n, acc, h =>
    formatAll args caller wrong rest n (acc.push (UInt8.ofNat c.toNat)) h
  | .fault message :: _, n, _, h =>
    wrong (if args.length ≤ n then .argument (n + 1) "no value" else .failure message) h
  | .item f :: rest, n, acc, h =>
    if args.length ≤ n then wrong (.argument (n + 1) "no value") h
    else if f.letter == 's' then
      toText (arg args (n + 1)) (caller.level 1) (fun s h =>
        match formattedText f (n + 1) s with
        | .error c => wrong c h
        | .ok s => formatAll args caller wrong rest (n + 1) (acc ++ s) h) h
    else match formatted f args (n + 1) with
      | .error c => wrong c h
      | .ok cs => formatAll args caller wrong rest (n + 1) (acc ++ latin cs) h

def stringFormat (args : List Datum) (caller : Caller) (wrong : Complaint → Heap → Step) (h : Heap) : Step :=
  match bytes args 1 with
  | .error c => wrong c h
  | .ok s => formatAll args caller wrong (Formatting.read (byteChars s)) 1 ByteArray.empty h

end ScriptHost.Lua.Library
