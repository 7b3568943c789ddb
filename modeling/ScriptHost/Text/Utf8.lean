/-!
# Bytes as text

Bytes are text when they are well-formed UTF-8.  `Utf8.decode` says where they stop being so, and
`Utf8.lossy` puts a replacement character for each ill-formed stretch.
-/

set_option autoImplicit false

namespace ScriptHost

structure Utf8Fault where
  validUpTo : Nat
  length : Option Nat
deriving DecidableEq, Repr

def Utf8Fault.message (f : Utf8Fault) : String :=
  match f.length with
  | some n =>
    "invalid utf-8 sequence of " ++ toString n ++ " bytes from index " ++ toString f.validUpTo
  | none => "incomplete utf-8 byte sequence from index " ++ toString f.validUpTo

namespace Utf8

def width (b : UInt8) : Nat :=
  if b < 0x80 then 1
  else if b < 0xC2 then 0
  else if b < 0xE0 then 2
  else if b < 0xF0 then 3
  else if b < 0xF5 then 4
  else 0

def isContinuation (b : UInt8) : Bool := 0x80 ≤ b && b < 0xC0

def maySecond (first second : UInt8) : Bool :=
  if first == 0xE0 then 0xA0 ≤ second && second < 0xC0
  else if first == 0xED then 0x80 ≤ second && second < 0xA0
  else if first == 0xF0 then 0x90 ≤ second && second < 0xC0
  else if first == 0xF4 then 0x80 ≤ second && second < 0x90
  else isContinuation second

def restFault : Nat → Nat → List UInt8 → Option (Option Nat)
  -- the fault of the character at the head, if it has one; `n` bytes of it are still to come and
  -- `read` are read
  | 0, _, _ => none
  | _ + 1, _, [] => some none
  | n + 1, read, b :: rest =>
    if isContinuation b then restFault n (read + 1) rest else some (some read)

def headFault : List UInt8 → Option (Option Nat)
  | [] => none
  | b :: rest =>
    match width b with
    | 0 => some (some 1)
    | 1 => none
    | n + 2 =>
      match rest with
      | [] => some none
      | c :: more => if maySecond b c then restFault n 2 more else some (some 1)

def faultFrom : Nat → Nat → List UInt8 → Option Utf8Fault
  | 0, _, _ => none
  | fuel + 1, index, bytes =>
    match bytes with
    | [] => none
    | b :: _ =>
      match headFault bytes with
      | some length => some ⟨index, length⟩
      | none => faultFrom fuel (index + width b) (bytes.drop (width b))

def fault? (bytes : ByteArray) : Option Utf8Fault :=
  faultFrom (bytes.size + 1) 0 bytes.toList

def decode (bytes : ByteArray) : Except Utf8Fault String :=
  match String.fromUTF8? bytes with
  | some s => .ok s
  | none => .error ((fault? bytes).getD ⟨0, none⟩)

def replacement : List UInt8 := [0xEF, 0xBF, 0xBD]

def mended : Nat → List UInt8 → List UInt8
  | 0, _ => []
  | fuel + 1, bytes =>
    match bytes with
    | [] => []
    | b :: _ =>
      match headFault bytes with
      | some (some n) => replacement ++ mended fuel (bytes.drop n)
      | some none => replacement
      | none => bytes.take (width b) ++ mended fuel (bytes.drop (width b))

def lossy (bytes : ByteArray) : String :=
  match String.fromUTF8? bytes with
  | some s => s
  | none => (String.fromUTF8? (mended (bytes.size + 1) bytes.toList).toByteArray).getD ""

end Utf8

end ScriptHost
