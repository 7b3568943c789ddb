import ScriptHost.Lua.Library.Text

/-!
# Packed values

A packing format is a list of options.  Some say how the next value is packed, the others how numbers are
ordered and aligned from there on.  A number is aligned to its size, or to the greatest alignment if that is
less.
-/

set_option autoImplicit false

namespace ScriptHost.Lua.Library

namespace Packing

inductive Kind where
  | signed
  | unsigned
  | single
  | double
  | chars
  | counted
  | ended
  | padding
  | alignment
  | nothing
deriving DecidableEq

structure Layout where
  little : Bool
  greatest : Nat

def Layout.native : Layout := ⟨true, 1⟩

def greatestSize : Nat := 16

def readDigits : Nat → Nat → List Char → Nat × List Char
  | 0, n, cs => (n, cs)
  | fuel + 1, n, c :: rest =>
    if c.isDigit && n ≤ 214748363 then readDigits fuel (n * 10 + (c.toNat - '0'.toNat)) rest
    else (n, c :: rest)
  | _, n, [] => (n, [])

def readNumber? (cs : List Char) : Option Nat × List Char :=
  match cs with
  | c :: _ => if c.isDigit then let (n, rest) := readDigits cs.length 0 cs; (some n, rest) else (none, cs)
  | [] => (none, [])

def readSize (usual : Nat) (cs : List Char) : Except String (Nat × List Char) :=
  match readNumber? cs with
  | (none, rest) => .ok (usual, rest)
  | (some n, rest) =>
    if 1 ≤ n ∧ n ≤ greatestSize then .ok (n, rest)
    else .error ("integral size (" ++ toString n ++ ") out of limits [1," ++ toString greatestSize ++ "]")

def readOption (l : Layout) (option : Char) (rest : List Char) :
    Except String (Kind × Nat × Layout × List Char) :=
  let fixed (kind : Kind) (size : Nat) : Except String (Kind × Nat × Layout × List Char) :=
    .ok (kind, size, l, rest)
  let sized (kind : Kind) (usual : Nat) : Except String (Kind × Nat × Layout × List Char) :=
    (readSize usual rest).map fun r => (kind, r.1, l, r.2)
  match option with
  | 'b' => fixed .signed 1
  | 'B' => fixed .unsigned 1
  | 'h' => fixed .signed 2
  | 'H' => fixed .unsigned 2
  | 'l' => fixed .signed 8
  | 'L' => fixed .unsigned 8
  | 'j' => fixed .signed 8
  | 'J' => fixed .unsigned 8
  | 'T' => fixed .unsigned 8
  | 'f' => fixed .single 4
  | 'n' => fixed .double 8
  | 'd' => fixed .double 8
  | 'i' => sized .signed 4
  | 'I' => sized .unsigned 4
  | 's' => sized .counted 8
  | 'c' =>
    match readNumber? rest with
    | (some n, rest) => .ok (.chars, n, l, rest)
    | (none, _) => .error "missing size for format option 'c'"
  | 'z' => fixed .ended 0
  | 'x' => fixed .padding 1
  | 'X' => fixed .alignment 0
  | ' ' => fixed .nothing 0
  | '<' => .ok (.nothing, 0, { l with little := true }, rest)
  | '>' => .ok (.nothing, 0, { l with little := false }, rest)
  | '=' => .ok (.nothing, 0, { l with little := true }, rest)
  | '!' => (readSize 8 rest).map fun r => (.nothing, 0, { l with greatest := r.1 }, r.2)
  | c => .error ("invalid format option '" ++ String.ofList [c] ++ "'")

structure Detail where
  kind : Kind
  size : Nat
  skipped : Nat
  layout : Layout
  rest : List Char

open Arguments in
def readDetail (l : Layout) (total : Nat) (option : Char) (cs : List Char) : Checked Detail := do
  let (kind, size, l, rest) ← (readOption l option cs).mapError .failure
  let (align, l, rest) ←
    if kind = .alignment then
      match rest with
      | [] => .error (.argument 1 "invalid next option for option 'X'")
      | next :: more => do
        let (nextKind, align, l, rest) ← (readOption l next more).mapError .failure
        if nextKind = .chars ∨ align = 0 then .error (.argument 1 "invalid next option for option 'X'")
        else .ok (align, l, rest)
    else .ok (size, l, rest)
  if align ≤ 1 ∨ kind = .chars then return ⟨kind, size, 0, l, rest⟩
  else
    let align := min align l.greatest
    if align &&& (align - 1) ≠ 0 then .error (.argument 1 "format asks for alignment not power of 2")
    else return ⟨kind, size, (align - total % align) % align, l, rest⟩

def lowBytes : Nat → Nat → List UInt8
  | 0, _ => []
  | size + 1, n => UInt8.ofNat n :: lowBytes size (n / 256)

def arranged (little : Bool) (bs : List UInt8) : List UInt8 := if little then bs else bs.reverse

def intBytes (l : Layout) (size : Nat) (n : Int) : List UInt8 :=
  arranged l.little (lowBytes size (n % Nat.pow 256 size).toNat)

def natOfBytes (bs : List UInt8) : Nat := bs.foldr (fun b n => n * 256 + b.toNat) 0

open Arguments in
def readInt (l : Layout) (signed : Bool) (bs : List UInt8) : Checked Int64 :=
  let size := bs.length
  let n := natOfBytes (arranged l.little bs)
  let low := n % Nat.pow 2 64
  if size ≤ 8 then
    let half := Nat.pow 256 size / 2
    .ok (Int64.ofInt (if signed && half ≤ n then (n : Int) - Nat.pow 256 size else n))
  else
    let filled := if signed && Nat.pow 2 63 ≤ low then Nat.pow 256 size - Nat.pow 2 64 else 0
    if n - low = filled then .ok (Int64.ofInt low)
    else .error (.failure (toString size ++ "-byte integer does not fit into Lua Integer"))

open Arguments in
def packOne (d : Detail) (args : List Datum) (n : Nat) : Checked (List UInt8) :=
  let zeros (count : Nat) : List UInt8 := List.replicate count 0
  match d.kind with
  | .signed => do
    let i := (← integer args n).toInt
    let limit : Int := Nat.pow 256 d.size / 2
    if d.size < 8 ∧ ¬(-limit ≤ i ∧ i < limit) then .error (.argument n "integer overflow")
    else return intBytes d.layout d.size i
  | .unsigned => do
    let i ← integer args n
    let bits := i.toUInt64.toNat
    if d.size < 8 ∧ Nat.pow 256 d.size ≤ bits then .error (.argument n "unsigned overflow")
    else return arranged d.layout.little (lowBytes d.size bits)
  | .single => do
    let x ← number args n
    return arranged d.layout.little (lowBytes 4 (Binary32.ofBinary64 x.toFloat).bits.toNat)
  | .double => do
    let x ← number args n
    return arranged d.layout.little (lowBytes 8 x.toFloat.bits.toNat)
  | .chars => do
    let s ← bytes args n
    if d.size < s.size then .error (.argument n "string longer than given size")
    else return s.toList ++ zeros (d.size - s.size)
  | .counted => do
    let s ← bytes args n
    if d.size < 8 ∧ Nat.pow 256 d.size ≤ s.size then
      .error (.argument n "string length does not fit in given size")
    else return arranged d.layout.little (lowBytes d.size s.size) ++ s.toList
  | .ended => do
    let s ← bytes args n
    if s.toList.contains 0 then .error (.argument n "string contains zeros") else return s.toList ++ [0]
  | .padding => .ok [0]
  | _ => .ok []

def Kind.takes (k : Kind) : Bool := k ≠ .padding && k ≠ .alignment && k ≠ .nothing

open Arguments in
def packFrom (args : List Datum) : Nat → Layout → List Char → Nat → ByteArray → Checked ByteArray
  | 0, _, _, _, acc => .ok acc
  | _, _, [], _, acc => .ok acc
  | fuel + 1, l, option :: cs, n, acc => do
    let d ← readDetail l acc.size option cs
    let n := if d.kind.takes then n + 1 else n
    let bs ← packOne d args n
    packFrom args fuel d.layout d.rest n (acc ++ (List.replicate d.skipped 0 ++ bs).toByteArray)

def readFormat (s : ByteArray) : List Char :=
  -- a format ends at its first zero
  byteChars (beforeZero s)

open Arguments in
def sizeFrom : Nat → Layout → List Char → Nat → Checked Nat
  | 0, _, _, total => .ok total
  | _, _, [], total => .ok total
  | fuel + 1, l, option :: cs, total => do
    let d ← readDetail l total option cs
    if d.kind = .counted ∨ d.kind = .ended then .error (.argument 1 "variable-length format")
    else if Nat.pow 2 31 - 1 < total + d.skipped + d.size then .error (.argument 1 "format result too large")
    else sizeFrom fuel d.layout d.rest (total + d.skipped + d.size)

open Arguments in
def unpackOne (d : Detail) (s : ByteArray) (i : Nat) : Checked (List Datum × Nat) :=
  let bs := (s.extract i (i + d.size)).toList
  match d.kind with
  | .signed => do return ([.int (← readInt d.layout true bs)], d.size)
  | .unsigned => do return ([.int (← readInt d.layout false bs)], d.size)
  | .single =>
    let bits := UInt32.ofNat (natOfBytes (arranged d.layout.little bs))
    .ok ([.float (Binary32.mk bits).toBinary64], d.size)
  | .double => .ok ([.float ⟨UInt64.ofNat (natOfBytes (arranged d.layout.little bs))⟩], d.size)
  | .chars => .ok ([.string (s.extract i (i + d.size))], d.size)
  | .counted => do
    let n := (← readInt d.layout false bs).toUInt64.toNat
    if s.size < i + d.size + n then .error (.argument 2 "data string too short")
    else return ([.string (s.extract (i + d.size) (i + d.size + n))], d.size + n)
  | .ended =>
    match (s.extract i s.size).toList.findIdx? (· == 0) with
    | some n => .ok ([.string (s.extract i (i + n))], n + 1)
    | none => .error (.argument 2 "unfinished string for format 'z'")
  | _ => .ok ([], d.size)

open Arguments in
def unpackFrom (s : ByteArray) : Nat → Layout → List Char → Nat → Checked (List Datum)
  | 0, _, _, i => .ok [.ofNat (i + 1)]
  | _, _, [], i => .ok [.ofNat (i + 1)]
  | fuel + 1, l, option :: cs, i => do
    let d ← readDetail l i option cs
    if s.size < i + d.skipped + d.size then .error (.argument 2 "data string too short")
    else
      let (ds, n) ← unpackOne d s (i + d.skipped)
      return ds ++ (← unpackFrom s fuel d.layout d.rest (i + d.skipped + n))

end Packing

open Arguments Packing

def stringPack (args : List Datum) : Checked (List Datum) := do
  let cs := readFormat (← bytes args 1)
  return [.string (← packFrom args cs.length .native cs 1 ByteArray.empty)]

def stringPackSize (args : List Datum) : Checked (List Datum) := do
  let cs := readFormat (← bytes args 1)
  return [.ofNat (← sizeFrom cs.length .native cs 0)]

def stringUnpack (args : List Datum) : Checked (List Datum) := do
  let cs := readFormat (← bytes args 1)
  let s ← bytes args 2
  let i := startOf (← integerOr args 3 1).toInt s.size - 1
  if s.size < i then .error (.argument 3 "initial position out of string")
  else unpackFrom s cs.length .native cs i

end ScriptHost.Lua.Library
