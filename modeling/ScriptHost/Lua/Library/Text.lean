import ScriptHost.Lua.Library.Arguments

/-!
# The libraries of strings and of UTF-8

Strings are bytes; positions count from one and, if negative, from the end.
-/

set_option autoImplicit false

namespace ScriptHost.Lua.Library

open Arguments

def textSize : List Datum → Nat
  | [] => 0
  | .string s :: rest => stringSize s.size + textSize rest
  | _ :: rest => textSize rest

def deliver (vs : List Datum) (h : Heap) : Step := claim (textSize vs) (fun h => .finish vs h) h

def startOf (i : Int) (size : Nat) : Nat :=
  if 0 < i then i.toNat else if i = 0 then 1 else if i < -(size : Int) then 1 else (size + i + 1).toNat

def endOf (j : Int) (size : Nat) : Nat :=
  if (size : Int) < j then size
  else if 0 ≤ j then j.toNat
  else if j < -(size : Int) then 0
  else (size + j + 1).toNat

def part (s : ByteArray) (first last : Nat) : ByteArray :=
  if last < first then ByteArray.empty else s.extract (first - 1) last

def stringSub (args : List Datum) : Checked (List Datum) := do
  let s ← bytes args 1
  let i ← integer args 2
  let j ← integerOr args 3 (-1)
  return [.string (part s (startOf i.toInt s.size) (endOf j.toInt s.size))]

def stringByte (args : List Datum) : Checked (List Datum) := do
  let s ← bytes args 1
  let i ← integerOr args 2 1
  let first := startOf i.toInt s.size
  let j ← integerOr args 3 (Int64.ofNat first)
  return (part s first (endOf j.toInt s.size)).toList.map fun b => .ofNat b.toNat

def mapBytes (f : UInt8 → UInt8) (s : ByteArray) : ByteArray := (s.toList.map f).toByteArray

def upperByte (b : UInt8) : UInt8 := if 97 ≤ b && b ≤ 122 then b - 32 else b

def lowerByte (b : UInt8) : UInt8 := if 65 ≤ b && b ≤ 90 then b + 32 else b

def onBytes (f : ByteArray → Datum) (args : List Datum) : Checked (List Datum) := do
  return [f (← bytes args 1)]

def coded (check : Nat → Int → Checked (List UInt8)) : Nat → List Datum → List Datum →
    Checked (List UInt8)
  | _, _, [] => .ok []
  | n, args, _ :: rest => do
    let i ← integer args n
    let bs ← check n i.toInt
    return bs ++ (← coded check (n + 1) args rest)

def outOfRange {α : Type} (n : Nat) : Checked α := .error (.argument n "value out of range")

def stringChar (args : List Datum) : Checked (List Datum) := do
  let bs ← coded (fun n i =>
    if 0 ≤ i ∧ i ≤ 255 then .ok [UInt8.ofNat i.toNat] else outOfRange n) 1 args args
  return [.string bs.toByteArray]

def utf8Char (args : List Datum) : Checked (List Datum) := do
  let bs ← coded (fun n i =>
    if 0 ≤ i ∧ i.toNat < Nat.pow 2 31 then .ok (Lexer.encodeUtf8 i.toNat) else outOfRange n) 1 args args
  return [.string bs.toByteArray]

def copies (s separator : ByteArray) : Nat → ByteArray → ByteArray
  | 0, acc => acc
  | n + 1, acc => copies s separator n (acc ++ separator ++ s)

def repeatArgs (args : List Datum) : Checked (ByteArray × ByteArray × Nat) := do
  let s ← bytes args 1
  let n ← integer args 2
  let separator ← bytesOr args 3 ByteArray.empty
  let n := n.toInt.toNat
  if 0 < n ∧ (Nat.pow 2 31 - 1) / n < s.size + separator.size then
    .error (.failure "resulting string too large")
  else return (s, separator, n)

def repeated (s separator : ByteArray) (n : Nat) (h : Heap) : Step :=
  -- the memory is taken before the copies are made
  if n = 0 then .finish [.string ByteArray.empty] h
  else
    claim (stringSize (s.size * n + separator.size * (n - 1)))
      (fun h => .finish [.string (copies s separator (n - 1) s)] h) h

def readCodePoint (strict : Bool) (bs : List UInt8) : Option (Nat × List UInt8) :=
  match bs with
  | [] => none
  | b :: rest =>
    if b < 0x80 then some (b.toNat, rest)
    else
      let count := if b < 0xC0 then 0 else if b < 0xE0 then 1 else if b < 0xF0 then 2
        else if b < 0xF8 then 3 else if b < 0xFC then 4 else if b < 0xFE then 5 else 6
      let tail := rest.take count
      let lead := b.toNat % Nat.pow 2 (6 - count)
      let code := tail.foldl (fun n c => n * 64 + c.toNat % 64) lead
      let least := match count with
        | 1 => 0x80
        | 2 => 0x800
        | 3 => 0x10000
        | 4 => 0x200000
        | _ => 0x4000000
      if count = 0 || 5 < count || tail.length < count
        || !tail.all (fun c => 0x80 ≤ c && c < 0xC0) || code < least then none
      else if strict && (0x10FFFF < code || (0xD800 ≤ code && code ≤ 0xDFFF)) then none
      else some (code, rest.drop count)

def countCodePoints (strict : Bool) (size last : Nat) : Nat → Nat → List UInt8 → List Datum
  | 0, n, _ => [.ofNat n]
  | fuel + 1, n, bs =>
    let position := size - bs.length + 1
    if last < position then [.ofNat n]
    else match readCodePoint strict bs with
      | some (_, rest) => countCodePoints strict size last fuel (n + 1) rest
      | none => [.nil, .ofNat position]

def relative (i : Int) (size : Nat) : Int :=
  if 0 ≤ i then i else if (size : Int) < -i then 0 else size + i + 1

def utf8Length (args : List Datum) : Checked (List Datum) := do
  let s ← bytes args 1
  let i ← integerOr args 2 1
  let j ← integerOr args 3 (-1)
  let first := relative i.toInt s.size
  let last := relative j.toInt s.size
  if ¬(1 ≤ first ∧ first - 1 ≤ s.size) then .error (.argument 2 "initial position out of bounds")
  else if ¬(last - 1 < s.size) then .error (.argument 3 "final position out of bounds")
  else
    let strict := !(arg args 4).isTruthy
    return countCodePoints strict s.size last.toNat (s.size + 1) 0
      (s.toList.drop (first - 1).toNat)

def invalidUtf8 : String := "invalid UTF-8 code"

def codePointsFrom (strict : Bool) (size last : Nat) : Nat → List UInt8 → Checked (List Datum)
  | 0, _ => .ok []
  | fuel + 1, bs =>
    if last ≤ size - bs.length then .ok []
    else match readCodePoint strict bs with
      | some (code, rest) => return .ofNat code :: (← codePointsFrom strict size last fuel rest)
      | none => .error (.failure invalidUtf8)

def utf8CodePoint (args : List Datum) : Checked (List Datum) := do
  let s ← bytes args 1
  let i ← integerOr args 2 1
  let first := relative i.toInt s.size
  let j ← integerOr args 3 (Int64.ofInt first)
  let last := relative j.toInt s.size
  if first < 1 then .error (.argument 2 "out of bounds")
  else if (s.size : Int) < last then .error (.argument 3 "out of bounds")
  else if last < first then return []
  else if Nat.pow 2 31 - 1 ≤ last - first then .error (.failure "string slice too long")
  else
    codePointsFrom (!(arg args 4).isTruthy) s.size last.toNat (s.size + 1) (s.toList.drop (first - 1).toNat)

def continues (b : UInt8) : Bool := 0x80 ≤ b && b < 0xC0

def continuesAt (s : ByteArray) (i : Nat) : Bool := s.data[i]?.any continues

def backToStart (s : ByteArray) : Nat → Nat
  | 0 => 0
  | i + 1 => if continuesAt s (i + 1) then backToStart s i else i + 1

def onToStart (s : ByteArray) : Nat → Nat → Nat
  | 0, i => i
  | fuel + 1, i => if continuesAt s i then onToStart s fuel (i + 1) else i

def stepsBack (s : ByteArray) : Nat → Nat → Option Nat
  | 0, i => some i
  | _, 0 => none
  | n + 1, i + 1 => stepsBack s n (backToStart s i)

def stepsOn (s : ByteArray) : Nat → Nat → Nat → Option Nat
  | 0, _, i => some i
  | _, 0, _ => none
  | n + 1, fuel + 1, i => if i < s.size then stepsOn s n fuel (onToStart s s.size (i + 1)) else none

def utf8Offset (args : List Datum) : Checked (List Datum) := do
  let s ← bytes args 1
  let n := (← integer args 2).toInt
  let i ← integerOr args 3 (if 0 < n then 1 else Int64.ofNat (s.size + 1))
  let position := relative i.toInt s.size
  if ¬(1 ≤ position ∧ position - 1 ≤ s.size) then .error (.argument 3 "position out of bounds")
  else
    let start := (position - 1).toNat
    let shown (found : Option Nat) : List Datum := [(found.map fun i => Datum.ofNat (i + 1)).getD .nil]
    if n = 0 then return shown (some (backToStart s start))
    else if continuesAt s start then .error (.failure "initial position is a continuation byte")
    else if n < 0 then return shown (stepsBack s n.natAbs start)
    else return shown (stepsOn s (n.toNat - 1) (s.size + 1) start)

def utf8Codes (args : List Datum) (next : Bool → Datum) : Checked (List Datum) := do
  let s ← bytes args 1
  if continuesAt s 0 then .error (.argument 1 invalidUtf8)
  else return [next (!(arg args 2).isTruthy), arg args 1, .ofNat 0]

def codesStep (strict : Bool) (args : List Datum) : Checked (List Datum) := do
  let s ← bytes args 1
  let n := ((arg args 2).toInt?.getD 0).toUInt64.toNat
  let i := if n < s.size then onToStart s s.size n else n
  if s.size ≤ i then return []
  else match readCodePoint strict (s.toList.drop i) with
    | none => .error (.failure invalidUtf8)
    | some (code, rest) =>
      if rest.head?.any continues then .error (.failure invalidUtf8)
      else return [.ofNat (i + 1), .ofNat code]

end ScriptHost.Lua.Library
