import ScriptHost.Json
import ScriptHost.Decimal.Layout

/-!
# JSON text

`Json.compact` writes a value without any white space, `Json.pretty` with two spaces a level and
empty containers closed at once.  Members are written in the order they have.  Text is written raw
but for the quote, the backslash and the control characters.
-/

set_option autoImplicit false

namespace ScriptHost

namespace Json

def hexDigit (n : Nat) : Char := (Nat.digitChar n)

def escapeChar (c : Char) : List Char :=
  if c = '"' then ['\\', '"']
  else if c = '\\' then ['\\', '\\']
  else if c.toNat = 8 then ['\\', 'b']
  else if c.toNat = 9 then ['\\', 't']
  else if c.toNat = 10 then ['\\', 'n']
  else if c.toNat = 12 then ['\\', 'f']
  else if c.toNat = 13 then ['\\', 'r']
  else if c.toNat < 32 then
    ['\\', 'u', '0', '0', hexDigit (c.toNat / 16), hexDigit (c.toNat % 16)]
  else [c]

def quote (s : String) : String :=
  String.ofList ('"' :: (s.toList.flatMap escapeChar ++ ['"']))

def scalarText : Json → String
  | .null => "null"
  | .bool b => if b then "true" else "false"
  | .int n => toString n
  | .float x => if x.isFinite then x.serialized else "null"
  | .str s => quote s
  | .arr _ => "[]"
  | .obj _ => "\x7b\x7d"

mutual

def compact : Json → String
  | .arr items => "[" ++ ",".intercalate (compactItems items) ++ "]"
  | .obj members => "\x7b" ++ ",".intercalate (compactMembers members) ++ "\x7d"
  | .null => "null"
  | .bool b => scalarText (.bool b)
  | .int n => scalarText (.int n)
  | .float x => scalarText (.float x)
  | .str s => quote s

def compactItems : List Json → List String
  | [] => []
  | j :: rest => j.compact :: compactItems rest

def compactMembers : List (String × Json) → List String
  | [] => []
  | (k, j) :: rest => (quote k ++ ":" ++ j.compact) :: compactMembers rest

end

def newline (level : Nat) : String := String.ofList ('\n' :: List.replicate (2 * level) ' ')

def bracket (opening closing : String) (level : Nat) : List String → String
  | [] => opening ++ closing
  | lines =>
    opening ++ newline (level + 1) ++ ("," ++ newline (level + 1)).intercalate lines
      ++ newline level ++ closing

mutual

def prettyAt (level : Nat) : Json → String
  | .arr items => bracket "[" "]" level (prettyItems (level + 1) items)
  | .obj members => bracket "\x7b" "\x7d" level (prettyMembers (level + 1) members)
  | .null => "null"
  | .bool b => scalarText (.bool b)
  | .int n => scalarText (.int n)
  | .float x => scalarText (.float x)
  | .str s => quote s

def prettyItems (level : Nat) : List Json → List String
  | [] => []
  | j :: rest => j.prettyAt level :: prettyItems level rest

def prettyMembers (level : Nat) : List (String × Json) → List String
  | [] => []
  | (k, j) :: rest => (quote k ++ ": " ++ j.prettyAt level) :: prettyMembers level rest

end

def pretty (j : Json) : String := j.prettyAt 0

end Json

end ScriptHost
