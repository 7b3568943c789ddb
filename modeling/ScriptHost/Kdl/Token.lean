import ScriptHost.Kdl
import ScriptHost.Json.Reader

/-!
# The words of a KDL document

Blanks, line breaks, comments, identifiers, numbers and strings, each as a function from the
characters ahead to what it read and the characters after it.  A loop takes a bound on its steps; the
number of characters ahead, plus one, is always enough.
-/

set_option autoImplicit false

namespace ScriptHost.Kdl

def isBlank (c : Char) : Bool :=
  let n := c.toNat
  n == 0x09 || n == 0x20 || n == 0xA0 || n == 0x1680 || (0x2000 ≤ n && n ≤ 0x200A) || n == 0x202F
    || n == 0x205F || n == 0x3000

def isBreak (c : Char) : Bool :=
  let n := c.toNat
  n == 0x0A || n == 0x0D || n == 0x85 || n == 0x0B || n == 0x0C || n == 0x2028 || n == 0x2029

def isForbidden (c : Char) : Bool :=
  let n := c.toNat
  n ≤ 0x08 || (0x0E ≤ n && n ≤ 0x1F) || n == 0x7F || n == 0x200E || n == 0x200F
    || (0x202A ≤ n && n ≤ 0x202E) || (0x2066 ≤ n && n ≤ 0x2069) || n == 0xFEFF

def isWordChar (c : Char) : Bool :=
  !isBlank c && !isBreak c && !isForbidden c && !"\\/(){};[]\"#=".contains c

abbrev Ahead := List Char

def lineBreak? : Ahead → Option Ahead
  | '\r' :: '\n' :: rest => some rest
  | c :: rest => if isBreak c then some rest else none
  | [] => none

def skipLine (cs : Ahead) : Ahead :=
  let rest := cs.dropWhile fun c => !isBreak c
  (lineBreak? rest).getD rest

def blockComment? : Nat → Ahead → Option Ahead
  | depth, '*' :: '/' :: rest =>
    match depth with
    | 0 => some rest
    | depth + 1 => blockComment? depth rest
  | depth, '/' :: '*' :: rest => blockComment? (depth + 1) rest
  | depth, _ :: rest => blockComment? depth rest
  | _, [] => none

def skipBlanks? : Nat → Ahead → Option Ahead
  | 0, _ => none
  | fuel + 1, cs =>
    match cs with
    | '/' :: '*' :: rest =>
      match blockComment? 0 rest with
      | some rest => skipBlanks? fuel rest
      | none => none
    | c :: rest => if isBlank c then skipBlanks? fuel rest else some (c :: rest)
    | [] => some []

def skipSpace? : Nat → Ahead → Option Ahead
  | 0, _ => none
  | fuel + 1, cs =>
    match skipBlanks? (cs.length + 1) cs with
    | none => none
    | some ('\\' :: rest) =>
      match skipBlanks? (rest.length + 1) rest with
      | none => none
      | some [] => some []
      | some ('/' :: '/' :: rest) => skipSpace? fuel (skipLine rest)
      | some rest =>
        match lineBreak? rest with
        | some rest => skipSpace? fuel rest
        | none => none
    | some rest => some rest

def skipLines? : Nat → Ahead → Option Ahead
  | 0, _ => none
  | fuel + 1, cs =>
    match skipSpace? (cs.length + 1) cs with
    | none => none
    | some ('/' :: '/' :: rest) => skipLines? fuel (skipLine rest)
    | some rest =>
      match lineBreak? rest with
      | some rest => skipLines? fuel rest
      | none => some rest

def digits? (base : Nat) : Ahead → Option (List Char × Ahead)
  | [] => none
  | c :: rest =>
    if (Json.digitValue? base c).isNone then none
    else
      let isDigit (d : Char) := d == '_' || (Json.digitValue? base d).isSome
      some ((c :: rest.takeWhile isDigit).filter (· != '_'), rest.dropWhile isDigit)

def endsWord : Ahead → Bool
  | [] => true
  | c :: _ => !isWordChar c && c != '"' && c != '#' && c != '(' && c != '['

def integer? (negative : Bool) (magnitude : Nat) : Option Value :=
  -- integers have at most 128 bits
  if negative then
    if magnitude ≤ Nat.pow 2 127 then some (.integer (-magnitude)) else none
  else if magnitude < Nat.pow 2 127 then some (.integer magnitude) else none

def sign : Ahead → Bool × Ahead
  | '-' :: rest => (true, rest)
  | '+' :: rest => (false, rest)
  | cs => (false, cs)

def radixNumber? (negative : Bool) (base : Nat) (cs : Ahead) : Option (Value × Ahead) :=
  match digits? base cs with
  | none => none
  | some (ds, rest) => (integer? negative (Json.natOfDigits base ds)).map (·, rest)

def decimalNumber? (negative : Bool) (cs : Ahead) : Option (Value × Ahead) :=
  match digits? 10 cs with
  | none => none
  | some (whole, rest) =>
    let fraction? : Option (Option (List Char) × Ahead) := match rest with
      | '.' :: more => (digits? 10 more).map fun (ds, rest) => (some ds, rest)
      | _ => some (none, rest)
    match fraction? with
    | none => none
    | some (fraction, rest) =>
      let exponent? : Option (Option Int × Ahead) := match rest with
        | c :: more =>
          if c = 'e' || c = 'E' then
            let (minus, more) := sign more
            (digits? 10 more).map fun (ds, rest) =>
              let n : Int := Json.natOfDigits 10 ds
              (some (if minus then -n else n), rest)
          else some (none, rest)
        | [] => some (none, rest)
      match exponent? with
      | none => none
      | some (exponent, rest) =>
        match fraction, exponent with
        | none, none => (integer? negative (Json.natOfDigits 10 whole)).map (·, rest)
        | _, _ =>
          let f := fraction.getD []
          let x := Binary64.ofDecimal (Json.natOfDigits 10 (whole ++ f)) (exponent.getD 0 - f.length)
          some (.float (if negative then x.neg else x), rest)

def number? (cs : Ahead) : Option (Value × Ahead) :=
  let (negative, cs) := sign cs
  let read := match cs with
    | '0' :: 'x' :: rest => radixNumber? negative 16 rest
    | '0' :: 'o' :: rest => radixNumber? negative 8 rest
    | '0' :: 'b' :: rest => radixNumber? negative 2 rest
    | _ => decimalNumber? negative cs
  match read with
  | some (v, rest) => if endsWord rest then some (v, rest) else none
  | none => none

def startsNumber (cs : Ahead) : Bool :=
  match (sign cs).2 with
  | c :: _ => Json.isDigit c
  | [] => false

def reservedWords : List String := ["true", "false", "null", "inf", "-inf", "nan"]

def word? (cs : Ahead) : Option (String × Ahead) :=
  -- a bare word does not look like a number and is not reserved
  let w := cs.takeWhile isWordChar
  let numeric := match (sign w).2 with
    | '.' :: c :: _ => Json.isDigit c
    | c :: _ => Json.isDigit c
    | [] => false
  if w.isEmpty || numeric || reservedWords.contains (String.ofList w) then none
  else some (String.ofList w, cs.drop w.length)

def escape? (c : Char) : Option Char :=
  if c = '"' || c = '\\' then some c
  else if c = 'b' then some (Char.ofNat 8)
  else if c = 'f' then some (Char.ofNat 12)
  else if c = 'n' then some '\n'
  else if c = 'r' then some '\r'
  else if c = 's' then some ' '
  else if c = 't' then some '\t'
  else none

def codePoint? : Ahead → Option (Char × Ahead)
  | '\x7b' :: rest =>
    let ds := rest.takeWhile fun c => (Json.digitValue? 16 c).isSome
    let n := Json.natOfDigits 16 ds
    match rest.drop ds.length with
    | '\x7d' :: rest =>
      if ds.isEmpty || ds.length > 6 || !n.isValidChar then none else some (Char.ofNat n, rest)
    | _ => none
  | _ => none

def unescape? : Nat → List Char → List Char → Option String
  -- blanks after a backslash vanish
  | 0, _, _ => none
  | fuel + 1, acc, cs =>
    match cs with
    | '\\' :: 'u' :: rest =>
      match codePoint? rest with
      | some (c, rest) => unescape? fuel (c :: acc) rest
      | none => none
    | '\\' :: c :: rest =>
      if isBlank c || isBreak c then
        unescape? fuel acc (rest.dropWhile fun d => isBlank d || isBreak d)
      else match escape? c with
        | some d => unescape? fuel (d :: acc) rest
        | none => none
    | '\\' :: [] => none
    | c :: rest => unescape? fuel (c :: acc) rest
    | [] => some (String.ofList acc.reverse)

def bodyUpTo? (escapes : Bool) (closing : List Char) : Nat → List Char → Ahead →
    Option (List Char × Ahead)
  -- a backslash keeps the next character where escapes are read
  | 0, _, _ => none
  | fuel + 1, acc, cs =>
    if closing.isPrefixOf cs then some (acc.reverse, cs.drop closing.length)
    else match cs with
      | '\\' :: c :: rest =>
        if escapes then bodyUpTo? escapes closing fuel (c :: '\\' :: acc) rest
        else bodyUpTo? escapes closing fuel ('\\' :: acc) (c :: rest)
      | c :: rest =>
        if isForbidden c then none else bodyUpTo? escapes closing fuel (c :: acc) rest
      | [] => none

def dropSoftBreaks : Nat → List Char → List Char
  | 0, cs => cs
  | fuel + 1, cs =>
    match cs with
    | '\\' :: c :: rest =>
      if isBlank c || isBreak c then
        dropSoftBreaks fuel (rest.dropWhile fun d => isBlank d || isBreak d)
      else '\\' :: c :: dropSoftBreaks fuel rest
    | c :: rest => c :: dropSoftBreaks fuel rest
    | [] => []

def lines : Nat → List Char → List Char → List (List Char)
  | 0, acc, _ => [acc.reverse]
  | fuel + 1, acc, cs =>
    match lineBreak? cs with
    | some rest => acc.reverse :: lines fuel [] rest
    | none =>
      match cs with
      | c :: rest => lines fuel (c :: acc) rest
      | [] => [acc.reverse]

def dedentLine? (indent line : List Char) : Option (List Char) :=
  if line.all isBlank then some []
  else if indent.isPrefixOf line then some (line.drop indent.length)
  else none

def dedent? (body : List Char) : Option (List Char) :=
  match lines (body.length + 1) [] body with
  | [] :: more =>
    match more.reverse with
    | indent :: inner =>
      if indent.all isBlank then
        (inner.reverse.mapM (dedentLine? indent)).map fun ls => List.intercalate ['\n'] ls
      else none
    | [] => none
  | _ => none

def breaksLine (joined : Bool) : List Char → Bool
  -- `joined` says that a backslash and blanks stand right before
  | '\\' :: c :: rest => breaksLine (isBlank c || isBreak c) rest
  | c :: rest =>
    if isBreak c then !joined || breaksLine true rest
    else breaksLine (joined && isBlank c) rest
  | [] => false

def quoted? : Ahead → Option (String × Ahead)
  | '"' :: '"' :: rest =>
    match bodyUpTo? true ['"', '"', '"'] (rest.length + 1) [] rest with
    | some (body, after) =>
      match dedent? (dropSoftBreaks body.length body) with
      | some text => (unescape? (text.length + 1) [] text).map (·, after)
      | none => none
    | none => none
  | cs =>
    match bodyUpTo? true ['"'] (cs.length + 1) [] cs with
    | some (body, after) =>
      if breaksLine false body then none else (unescape? (body.length + 1) [] body).map (·, after)
    | none => none

def raw? (cs : Ahead) : Option (String × Ahead) :=
  let hashes := cs.takeWhile (· == '#')
  match cs.drop hashes.length with
  | '"' :: '"' :: '"' :: rest =>
    match bodyUpTo? false (['"', '"', '"'] ++ hashes) (rest.length + 1) [] rest with
    | some (body, after) => (dedent? body).map fun text => (String.ofList text, after)
    | none => none
  | '"' :: rest =>
    match bodyUpTo? false ('"' :: hashes) (rest.length + 1) [] rest with
    | some (body, after) =>
      if body.any isBreak then none else some (String.ofList body, after)
    | none => none
  | _ => none

def string? : Ahead → Option (String × Ahead)
  | '"' :: rest => quoted? rest
  | '#' :: rest => raw? ('#' :: rest)
  | cs => word? cs

def keywords : List (String × Value) := [
  ("#true", .bool true), ("#false", .bool false), ("#null", .null),
  ("#inf", .float .infinity), ("#-inf", .float Binary64.infinity.neg),
  ("#nan", .float .quietNaN)]

def value? (cs : Ahead) : Option (Value × Ahead) :=
  match cs with
  | '#' :: c :: rest =>
    if c = '"' || c = '#' then (raw? cs).map fun (s, rest) => (.string s, rest)
    else
      let w := '#' :: (c :: rest).takeWhile isWordChar
      (keywords.find? fun k => k.1.toList == w).map fun k => (k.2, cs.drop w.length)
  | _ =>
    if startsNumber cs then number? cs
    else (string? cs).map fun (s, rest) => (.string s, rest)

end ScriptHost.Kdl
