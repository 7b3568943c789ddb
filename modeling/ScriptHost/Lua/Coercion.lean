import ScriptHost.Decimal.Layout
import ScriptHost.Lua.Datum

/-!
# Numbers as text and text as numbers

The text of a number in a script, and what a datum is where a number, an integer or a text is wanted:
numbers serve as text, texts that are numerals serve as numbers, and whole numbers serve as integers.
-/

set_option autoImplicit false

namespace ScriptHost.Lua

def Number.text : Number → String
  | .int n => toString n.toInt
  | .float x => x.generalText

def Number.toFloat : Number → Binary64
  | .int n => .ofInt n.toInt
  | .float x => x

def Number.toInt? : Number → Option Int64
  | .int n => some n
  | .float x => Datum.wholeInt64? x

def Number.toDatum : Number → Datum
  | .int n => .int n
  | .float x => .float x

def byteChars (s : ByteArray) : List Char := s.toList.map fun b => Char.ofNat b.toNat

namespace Datum

def ofNat (n : Nat) : Datum := .int (Int64.ofNat n)

def number? : Datum → Option Number
  | .int n => some (.int n)
  | .float x => some (.float x)
  | _ => none

def toNumber? : Datum → Option Number
  | .int n => some (.int n)
  | .float x => some (.float x)
  | .string s => Numeral.ofChars? (byteChars s)
  | _ => none

def toInt? (d : Datum) : Option Int64 := d.toNumber?.bind Number.toInt?

def toBytes? : Datum → Option ByteArray
  | .string s => some s
  | .int n => some (Number.text (.int n)).toUTF8
  | .float x => some (Number.text (.float x)).toUTF8
  | _ => none

def isNumber : Datum → Bool
  | .int _ => true
  | .float _ => true
  | _ => false

def isString : Datum → Bool
  | .string _ => true
  | _ => false

end Datum

end ScriptHost.Lua
