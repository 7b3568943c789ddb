import ScriptHost.Text.Bytes
import ScriptHost.Lua.Numeral
import ScriptHost.Text.Utf8

/-!
# Tokens of a script

A script is read byte by byte into lexemes: a token, the line it ends on, and its text as messages
quote it.  The list ends with the end of the script or with the first token that is malformed.
-/

set_option autoImplicit false

namespace ScriptHost.Lua

inductive Token where
  | name (s : ByteArray)
  | keyword (s : String)
  | symbol (s : String)
  | int (n : Int64)
  | float (x : Binary64)
  | string (s : ByteArray)
  | eof
  | bad (message : String) (near : ByteArray)
deriving DecidableEq, Inhabited

structure Lexeme where
  token : Token
  line : Nat
  near : ByteArray
deriving Inhabited

namespace Lexer

abbrev Bytes := List UInt8

def keywords : List String := [
  "and", "break", "do", "else", "elseif", "end", "false", "for", "function", "goto", "if", "in",
  "local", "nil", "not", "or", "repeat", "return", "then", "true", "until", "while"]

def longSymbols : List String :=
  ["...", "..", "==", "~=", "<=", ">=", "//", "::", "<<", ">>"]

def code (c : Char) : UInt8 := UInt8.ofNat c.toNat

def isChar (c : Char) (b : UInt8) : Bool := b == code c

def isDigit (b : UInt8) : Bool := code '0' ≤ b && b ≤ code '9'

def isLetter (b : UInt8) : Bool :=
  (code 'a' ≤ b && b ≤ code 'z') || (code 'A' ≤ b && b ≤ code 'Z') || isChar '_' b

def isWord (b : UInt8) : Bool := isLetter b || isDigit b

def isHex (b : UInt8) : Bool := Numeral.isHex (Char.ofNat b.toNat)

def isNewline (b : UInt8) : Bool := b == 10 || b == 13

def isSpace (b : UInt8) : Bool := b == 32 || b == 9 || b == 11 || b == 12

def chars (bs : Bytes) : List Char := bs.map fun b => Char.ofNat b.toNat

def hexValue (bs : Bytes) : Nat := Json.natOfDigits 16 (chars bs)

def decimalValue (bs : Bytes) : Nat := Json.natOfDigits 10 (chars bs)

def quoted (bs : Bytes) : ByteArray :=
  (code '\'' :: (bs.takeWhile (· != 0) ++ [code '\''])).toByteArray

def byteNear (b : UInt8) : ByteArray :=
  if 32 ≤ b && b < 127 then quoted [b]
  else ("'<\\" ++ toString b.toNat ++ ">'").toUTF8

def skipNewline : Bytes → Bytes
  | a :: b :: rest => if isNewline b && a != b then rest else b :: rest
  | _ :: rest => rest
  | [] => []

def longBracket? : Bytes → Option (Nat × Bytes)
  | b :: rest =>
    let equals := rest.takeWhile (isChar '=')
    match rest.drop equals.length with
    | c :: more => if isChar '[' b && isChar '[' c then some (equals.length, more) else none
    | [] => none
  | [] => none

def closing (level : Nat) : Bytes := code ']' :: List.replicate level (code '=') ++ [code ']']

def longBody (level : Nat) : Nat → Nat → Bytes → Bytes → Option (Bytes × Nat × Bytes)
  | 0, _, _, _ => none
  | fuel + 1, line, acc, bs =>
    if (closing level).isPrefixOf bs then some (acc.reverse, line, bs.drop (level + 2))
    else match bs with
      | [] => none
      | b :: rest =>
        if isNewline b then longBody level fuel (line + 1) (10 :: acc) (skipNewline (b :: rest))
        else longBody level fuel line (b :: acc) rest

def longString (level line : Nat) (bs : Bytes) : Option (Bytes × Nat × Bytes) :=
  -- a first line break is no part of it
  match bs with
  | b :: _ =>
    if isNewline b then longBody level (bs.length + 1) (line + 1) [] (skipNewline bs)
    else longBody level (bs.length + 1) line [] bs
  | [] => none

def lineCount : Nat → Bytes → Nat
  | 0, _ => 0
  | fuel + 1, bs =>
    match bs with
    | [] => 0
    | b :: rest =>
      if isNewline b then lineCount fuel (skipNewline (b :: rest)) + 1 else lineCount fuel rest

def encodeUtf8 (n : Nat) : Bytes :=
  let tail (shift : Nat) : UInt8 := UInt8.ofNat (0x80 + n / Nat.pow 2 shift % 64)
  if n < 0x80 then [UInt8.ofNat n]
  else if n < 0x800 then [UInt8.ofNat (0xC0 + n / Nat.pow 2 6), tail 0]
  else if n < 0x10000 then [UInt8.ofNat (0xE0 + n / Nat.pow 2 12), tail 6, tail 0]
  else if n < 0x200000 then [UInt8.ofNat (0xF0 + n / Nat.pow 2 18), tail 12, tail 6, tail 0]
  else if n < 0x4000000 then [UInt8.ofNat (0xF8 + n / Nat.pow 2 24), tail 18, tail 12, tail 6, tail 0]
  else [UInt8.ofNat (0xFC + n / Nat.pow 2 30), tail 24, tail 18, tail 12, tail 6, tail 0]

inductive Escape where
  | bytes (bs : Bytes) (lines : Nat) (rest : Bytes)
  | wrong (message : String) (shown : Bytes)

def simpleEscape? (b : UInt8) : Option UInt8 :=
  if isChar 'a' b then some 7
  else if isChar 'b' b then some 8
  else if isChar 'f' b then some 12
  else if isChar 'n' b then some 10
  else if isChar 'r' b then some 13
  else if isChar 't' b then some 9
  else if isChar 'v' b then some 11
  else if isChar '\\' b || isChar '"' b || isChar '\'' b then some b
  else none

def hexEscape (rest : Bytes) : Escape :=
  match rest with
  | a :: b :: more =>
    if !isHex a then .wrong "hexadecimal digit expected" [code 'x', a]
    else if !isHex b then .wrong "hexadecimal digit expected" [code 'x', a, b]
    else .bytes [UInt8.ofNat (hexValue [a, b])] 0 more
  | [a] =>
    if isHex a then .wrong "hexadecimal digit expected" [code 'x', a]
    else .wrong "hexadecimal digit expected" [code 'x', a]
  | [] => .wrong "hexadecimal digit expected" [code 'x']

def codePointEscape (rest : Bytes) : Escape :=
  let shown (bs : Bytes) : Bytes := code 'u' :: bs
  match rest with
  | o :: more =>
    if !isChar '\x7b' o then .wrong "missing '\x7b' in \\u\x7bxxxx\x7d" (shown [o])
    else
      let digits := more.takeWhile isHex
      let after := more.drop digits.length
      match (List.range digits.length).find? fun i => Nat.pow 2 31 ≤ hexValue (digits.take (i + 1)) with
      | some i => .wrong "UTF-8 value too large" (shown (o :: digits.take (i + 1)))
      | none =>
        if digits.isEmpty then
          .wrong "hexadecimal digit expected" (shown (o :: after.take 1))
        else match after with
          | c :: rest =>
            if isChar '\x7d' c then .bytes (encodeUtf8 (hexValue digits)) 0 rest
            else .wrong "missing '\x7d' in \\u\x7bxxxx\x7d" (shown (o :: digits ++ [c]))
          | [] => .wrong "missing '\x7d' in \\u\x7bxxxx\x7d" (shown (o :: digits))
  | [] => .wrong "missing '\x7b' in \\u\x7bxxxx\x7d" (shown [])

def decimalEscape (rest : Bytes) : Escape :=
  let digits := (rest.take 3).takeWhile isDigit
  let after := rest.drop digits.length
  if decimalValue digits < 256 then .bytes [UInt8.ofNat (decimalValue digits)] 0 after
  else .wrong "decimal escape too large" (digits ++ after.take 1)

def skipSpaces : Nat → Nat → Bytes → Nat × Bytes
  | 0, lines, bs => (lines, bs)
  | fuel + 1, lines, bs =>
    match bs with
    | b :: rest =>
      if isNewline b then skipSpaces fuel (lines + 1) (skipNewline (b :: rest))
      else if isSpace b then skipSpaces fuel lines rest
      else (lines, b :: rest)
    | [] => (lines, [])

def escape (rest : Bytes) : Escape :=
  match rest with
  | [] => .bytes [] 0 []
  | b :: more =>
    match simpleEscape? b with
    | some c => .bytes [c] 0 more
    | none =>
      if isNewline b then .bytes [10] 1 (skipNewline (b :: more))
      else if isChar 'x' b then hexEscape more
      else if isChar 'u' b then codePointEscape more
      else if isChar 'z' b then
        let (lines, after) := skipSpaces (more.length + 1) 0 more
        .bytes [] lines after
      else if isDigit b then decimalEscape (b :: more)
      else .wrong "invalid escape sequence" [b]

def shortString (quote : UInt8) : Nat → Nat → Bytes → Bytes → Lexeme × Bytes
  | 0, line, _, _ => (⟨.bad "unfinished string" "<eof>".toUTF8, line, ByteArray.empty⟩, [])
  | fuel + 1, line, acc, bs =>
    let shown (more : Bytes) : ByteArray := quoted (quote :: acc.reverse ++ more)
    match bs with
    | [] => (⟨.bad "unfinished string" "<eof>".toUTF8, line, ByteArray.empty⟩, [])
    | b :: rest =>
      if b == quote then (⟨.string acc.reverse.toByteArray, line, shown [quote]⟩, rest)
      else if isNewline b then (⟨.bad "unfinished string" (shown []), line, ByteArray.empty⟩, [])
      else if isChar '\\' b then
        match escape rest with
        | .bytes out lines after => shortString quote fuel (line + lines) (out.reverse ++ acc) after
        | .wrong message read =>
          (⟨.bad message (shown (code '\\' :: read)), line, ByteArray.empty⟩, [])
      else shortString quote fuel line (b :: acc) rest

def numeralBytes (isExponent : UInt8 → Bool) : Nat → Bytes → Bytes
  | 0, _ => []
  | fuel + 1, bs =>
    match bs with
    | b :: rest =>
      if isExponent b then
        match rest with
        | s :: more =>
          if isChar '+' s || isChar '-' s then b :: s :: numeralBytes isExponent fuel more
          else b :: numeralBytes isExponent fuel (s :: more)
        | [] => [b]
      else if isHex b || isChar '.' b then b :: numeralBytes isExponent fuel rest
      else if isLetter b then [b]
      else []
    | [] => []

def numeral (line : Nat) (bs : Bytes) : Lexeme × Bytes :=
  let body := match bs with
    | a :: b :: rest =>
      if isChar '0' a && (isChar 'x' b || isChar 'X' b) then
        a :: b :: numeralBytes (fun c => isChar 'p' c || isChar 'P' c) (rest.length + 1) rest
      else numeralBytes (fun c => isChar 'e' c || isChar 'E' c) (bs.length + 1) bs
    | _ => numeralBytes (fun c => isChar 'e' c || isChar 'E' c) (bs.length + 1) bs
  let token : Token := match Numeral.unsigned? false (chars body) with
    | some (.int n) => .int n
    | some (.float x) => .float x
    | none => .bad "malformed number" (quoted body)
  (⟨token, line, quoted body⟩, bs.drop body.length)

def word (line : Nat) (bs : Bytes) : Lexeme × Bytes :=
  let body := bs.takeWhile isWord
  let text := String.ofList (chars body)
  let token : Token := if keywords.contains text then .keyword text else .name body.toByteArray
  (⟨token, line, quoted body⟩, bs.drop body.length)

def symbol (line : Nat) (bs : Bytes) : Lexeme × Bytes :=
  match longSymbols.find? fun s => s.toUTF8.toList.isPrefixOf bs with
  | some s => (⟨.symbol s, line, quoted s.toUTF8.toList⟩, bs.drop s.utf8ByteSize)
  | none =>
    match bs with
    | b :: rest =>
      (⟨.symbol (String.singleton (Char.ofNat b.toNat)), line, byteNear b⟩, rest)
    | [] => (⟨.eof, line, "<eof>".toUTF8⟩, [])

def bracket (line : Nat) (bs : Bytes) : Lexeme × Bytes :=
  match longBracket? bs with
  | some (level, rest) =>
    match longString level line rest with
    | some (body, last, after) =>
      let mark := List.replicate level (code '=')
      let shown := code '[' :: mark ++ [code '['] ++ body ++ closing level
      (⟨.string body.toByteArray, last, quoted shown⟩, after)
    | none =>
      let last := line + lineCount (rest.length + 1) rest
      (⟨.bad ("unfinished long string (starting at line " ++ toString line ++ ")") "<eof>".toUTF8,
        last, ByteArray.empty⟩, [])
  | none =>
    match bs with
    | _ :: c :: _ =>
      if isChar '=' c then
        let mark := (bs.drop 1).takeWhile (isChar '=')
        (⟨.bad "invalid long string delimiter" (quoted (code '[' :: mark)), line,
          ByteArray.empty⟩, [])
      else symbol line bs
    | _ => symbol line bs

def lexeme (line : Nat) (bs : Bytes) : Lexeme × Bytes :=
  match bs with
  | [] => (⟨.eof, line, "<eof>".toUTF8⟩, [])
  | b :: rest =>
    if isChar '"' b || isChar '\'' b then shortString b (rest.length + 1) line [] rest
    else if isChar '[' b then bracket line bs
    else if isDigit b then numeral line bs
    else if isChar '.' b then
      match rest with
      | c :: _ => if isDigit c then numeral line bs else symbol line bs
      | [] => symbol line bs
    else if isLetter b then word line bs
    else symbol line bs

def skipBlanks : Nat → Nat → Bytes → Except Lexeme (Nat × Bytes)
  -- nothing when a comment does not end
  | 0, line, bs => .ok (line, bs)
  | fuel + 1, line, bs =>
    match bs with
    | [] => .ok (line, [])
    | b :: rest =>
      if isNewline b then skipBlanks fuel (line + 1) (skipNewline bs)
      else if isSpace b then skipBlanks fuel line rest
      else match rest with
        | c :: more =>
          if isChar '-' b && isChar '-' c then
            match longBracket? more with
            | some (level, body) =>
              match longString level line body with
              | some (_, last, after) => skipBlanks fuel last after
              | none =>
                let last := line + lineCount (body.length + 1) body
                .error ⟨.bad ("unfinished long comment (starting at line " ++ toString line ++ ")")
                  "<eof>".toUTF8, last, ByteArray.empty⟩
            | none => skipBlanks fuel line (more.dropWhile fun x => !isNewline x)
          else .ok (line, bs)
        | [] => .ok (line, bs)

def lexemes : Nat → Nat → Bytes → List Lexeme
  | 0, _, _ => []
  | fuel + 1, line, bs =>
    match skipBlanks (bs.length + 1) line bs with
    | .error l => [l]
    | .ok (line, bs) =>
      let (l, rest) := lexeme line bs
      match l.token with
      | .eof => [l]
      | .bad _ _ => [l]
      | _ => l :: lexemes fuel l.line rest

def ofScript (script : ByteArray) : List Lexeme := lexemes (script.size + 1) 1 script.toList

end Lexer

end ScriptHost.Lua
