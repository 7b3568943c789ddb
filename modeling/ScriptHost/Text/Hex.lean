import ScriptHost.Json.Reader

/-!
# Hexadecimal text

Numbers and bytes as hexadecimal digits, small letters for the digits past nine.
-/

set_option autoImplicit false

namespace ScriptHost

namespace Hex

def padded (width n : Nat) : String :=
  let digits := Nat.toDigits 16 n
  String.ofList (List.replicate (width - digits.length) '0' ++ digits)

def value (s : String) : Nat := Json.natOfDigits 16 s.toList

def bytesOf : List Char → List UInt8
  | a :: b :: rest => UInt8.ofNat (Json.natOfDigits 16 [a, b]) :: bytesOf rest
  | _ => []

def bytes (s : String) : ByteArray := ⟨(bytesOf s.toList).toArray⟩

end Hex

end ScriptHost
