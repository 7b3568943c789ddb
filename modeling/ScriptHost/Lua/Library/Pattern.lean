import ScriptHost.Lua.Library.Text

/-!
# Patterns of strings

A pattern is read into a list of items before it is matched.  A malformed one ends in a fault, which fails
only when matching gets that far.  Matching an item goes on with the items after it, the longest way first
unless the item says otherwise, so it is a recursion on the list of items; how deep it nests is limited.
-/

set_option autoImplicit false

namespace ScriptHost.Lua.Library

namespace Pattern

def isControl (c : Char) : Bool := c.toNat < 32 || c.toNat == 127

def isGraphic (c : Char) : Bool := 32 < c.toNat && c.toNat < 127

def named (letter c : Char) : Bool :=
  -- a capital names the rest of a class; a character that names no class is itself
  let among (b : Bool) : Bool := if letter.isUpper then !b else b
  match letter.toLower with
  | 'a' => among c.isAlpha
  | 'c' => among (isControl c)
  | 'd' => among c.isDigit
  | 'g' => among (isGraphic c)
  | 'l' => among c.isLower
  | 'p' => among (isGraphic c && !c.isAlphanum)
  | 's' => among (Numeral.isSpace c)
  | 'u' => among c.isUpper
  | 'w' => among c.isAlphanum
  | 'x' => among (Numeral.isHex c)
  | _ => letter == c

inductive Member where
  | char (c : Char)
  | range (low high : Char)
  | named (letter : Char)

def Member.has (c : Char) : Member → Bool
  | .char d => c == d
  | .range low high => low ≤ c && c ≤ high
  | .named letter => Pattern.named letter c

inductive Class where
  | any
  | member (m : Member)
  | set (negated : Bool) (members : List Member)

def Class.has (c : Char) : Class → Bool
  | .any => true
  | .member m => m.has c
  | .set negated members => members.any (·.has c) != negated

inductive Times where
  | once
  | optional
  | many
  | some
  | few

inductive Item where
  | opened
  | closed
  | position
  | atEnd
  | balance (left right : Char)
  | frontier (c : Class)
  | again (digit : Char)
  | one (c : Class) (times : Times)
  | fault (message : String)

def setBody : List Char → Option (List Char × List Char)
  -- the first character never closes a set
  | [] => none
  | '%' :: c :: ']' :: rest => some (['%', c], rest)
  | '%' :: c :: rest => (setBody rest).map fun r => ('%' :: c :: r.1, r.2)
  | c :: ']' :: rest => some ([c], rest)
  | c :: rest => (setBody rest).map fun r => (c :: r.1, r.2)

def members : List Char → List Member
  | [] => []
  | ['%'] => [.char ']']
  | '%' :: letter :: rest => .named letter :: members rest
  | low :: '-' :: high :: rest => .range low high :: members rest
  | c :: rest => .char c :: members rest

def readSet (negated : Bool) (cs : List Char) : Except String (Class × List Char) :=
  match setBody cs with
  | some (inside, rest) => .ok (.set negated (members inside), rest)
  | none => .error "malformed pattern (missing ']')"

def readClass : List Char → Except String (Class × List Char)
  | '.' :: rest => .ok (.any, rest)
  | ['%'] => .error "malformed pattern (ends with '%')"
  | '%' :: letter :: rest => .ok (.member (.named letter), rest)
  | '[' :: '^' :: rest => readSet true rest
  | '[' :: rest => readSet false rest
  | c :: rest => .ok (.member (.char c), rest)
  | [] => .error "malformed pattern"

def readTimes : List Char → Times × List Char
  | '?' :: rest => (.optional, rest)
  | '*' :: rest => (.many, rest)
  | '+' :: rest => (.some, rest)
  | '-' :: rest => (.few, rest)
  | rest => (.once, rest)

def readOne (cs : List Char) : Item × List Char :=
  match readClass cs with
  | .error message => (.fault message, [])
  | .ok (c, rest) => (.one c (readTimes rest).1, (readTimes rest).2)

def readFrontier (cs : List Char) : Item × List Char :=
  match readClass cs with
  | .error message => (.fault message, [])
  | .ok (c, rest) => (.frontier c, rest)

def readItem : List Char → Item × List Char
  | '(' :: ')' :: rest => (.position, rest)
  | '(' :: rest => (.opened, rest)
  | ')' :: rest => (.closed, rest)
  | ['$'] => (.atEnd, [])
  | '%' :: 'b' :: left :: right :: rest => (.balance left right, rest)
  | '%' :: 'b' :: _ => (.fault "malformed pattern (missing arguments to '%b')", [])
  | '%' :: 'f' :: '[' :: rest => readFrontier ('[' :: rest)
  | '%' :: 'f' :: _ => (.fault "missing '[' after '%f' in pattern", [])
  | '%' :: c :: rest => if c.isDigit then (.again c, rest) else readOne ('%' :: c :: rest)
  | cs => readOne cs

def readItems : Nat → List Char → List Item
  | 0, _ => []
  | _, [] => []
  | fuel + 1, cs => (readItem cs).1 :: readItems fuel (readItem cs).2

def read (cs : List Char) : List Item := readItems cs.length cs

def readAnchored : List Char → Bool × List Item
  | '^' :: rest => (true, read rest)
  | cs => (false, read cs)

inductive Extent where
  | unfinished
  | position
  | closed (length : Nat)
deriving DecidableEq

structure Capture where
  start : Nat
  extent : Extent

def captureLimit : Nat := 32

structure Match where
  last : Nat
  captures : List Capture

abbrev Found := Except String (Option Match)

def depthLimit : Nat := 200

def deeper : Nat → (Nat → Found) → Found
  | 0, _ => .error "pattern too complex"
  | depth + 1, go => go depth

def orElse (first : Found) (second : Unit → Found) : Found :=
  match first with
  | .ok none => second ()
  | r => r

def charAt (s : ByteArray) (i : Nat) : Option Char := s.data[i]?.map fun b => Char.ofNat b.toNat

def single (s : ByteArray) (c : Class) (i : Nat) : Bool := (charAt s i).any fun d => c.has d

def span (s : ByteArray) (c : Class) : Nat → Nat → Nat → Nat
  | 0, _, n => n
  | fuel + 1, i, n => if single s c i then span s c fuel (i + 1) (n + 1) else n

def longest (go : Nat → Found) (i : Nat) : Nat → Found
  | 0 => go i
  | n + 1 => orElse (go (i + n + 1)) fun _ => longest go i n

def shortest (s : ByteArray) (c : Class) (go : Nat → Found) : Nat → Nat → Found
  | 0, i => go i
  | fuel + 1, i => orElse (go i) fun _ => if single s c i then shortest s c go fuel (i + 1) else .ok none

def balanced (s : ByteArray) (left right : Char) : Nat → Nat → Nat → Option Nat
  | 0, _, _ => none
  | fuel + 1, i, opened =>
    match charAt s i with
    | none => none
    | some c =>
      if c == right then
        if opened ≤ 1 then some (i + 1) else balanced s left right fuel (i + 1) (opened - 1)
      else balanced s left right fuel (i + 1) (if c == left then opened + 1 else opened)

def close (i : Nat) (captures : List Capture) : Option (List Capture) :=
  (captures.reverse.findIdx? (·.extent == .unfinished)).map fun n =>
    captures.modify (captures.length - 1 - n) fun c => { c with extent := .closed (i - c.start) }

def captureNumber (digit : Char) : Nat := digit.toNat - '0'.toNat

def invalidCapture {α : Type} (digit : Char) : Except String α :=
  .error ("invalid capture index %" ++ toString (captureNumber digit))

def repetition (s : ByteArray) (digit : Char) (i : Nat) (captures : List Capture) :
    Except String (Option Nat) :=
  if digit == '0' then invalidCapture digit
  else match captures[captureNumber digit - 1]? with
    | none => invalidCapture digit
    | some c =>
      match c.extent with
      | .unfinished => invalidCapture digit
      | .position => .ok none
      | .closed n =>
        .ok (if i + n ≤ s.size && s.extract c.start (c.start + n) == s.extract i (i + n) then some (i + n)
          else none)

def before (s : ByteArray) (i : Nat) : Char :=
  -- the text stands between zeros
  if i = 0 then Char.ofNat 0 else (charAt s (i - 1)).getD (Char.ofNat 0)

def run (s : ByteArray) : List Item → Nat → Nat → List Capture → Found
  | [], _, i, captures => .ok (some ⟨i, captures⟩)
  | .fault message :: _, _, _, _ => .error message
  | .opened :: rest, depth, i, captures =>
    if captureLimit ≤ captures.length then .error "too many captures"
    else deeper depth fun depth => run s rest depth i (captures ++ [⟨i, .unfinished⟩])
  | .position :: rest, depth, i, captures =>
    if captureLimit ≤ captures.length then .error "too many captures"
    else deeper depth fun depth => run s rest depth i (captures ++ [⟨i, .position⟩])
  | .closed :: rest, depth, i, captures =>
    match close i captures with
    | none => .error "invalid pattern capture"
    | some captures => deeper depth fun depth => run s rest depth i captures
  | .atEnd :: _, _, i, captures => .ok (if i = s.size then some ⟨i, captures⟩ else none)
  | .balance left right :: rest, depth, i, captures =>
    if charAt s i == some left then
      match balanced s left right (s.size - i) (i + 1) 1 with
      | some i => run s rest depth i captures
      | none => .ok none
    else .ok none
  | .frontier c :: rest, depth, i, captures =>
    if !c.has (before s i) && c.has ((charAt s i).getD (Char.ofNat 0)) then run s rest depth i captures
    else .ok none
  | .again digit :: rest, depth, i, captures =>
    match repetition s digit i captures with
    | .error message => .error message
    | .ok none => .ok none
    | .ok (some i) => run s rest depth i captures
  | .one c times :: rest, depth, i, captures =>
    let go (i : Nat) : Found := deeper depth fun depth => run s rest depth i captures
    if single s c i then
      match times with
      | .once => run s rest depth (i + 1) captures
      | .optional => orElse (go (i + 1)) fun _ => run s rest depth i captures
      | .some => longest go (i + 1) (span s c (s.size - (i + 1)) (i + 1) 0)
      | .many => longest go i (span s c (s.size - i) i 0)
      | .few => shortest s c go (s.size - i) i
    else
      match times with
      | .once => .ok none
      | .some => .ok none
      | _ => run s rest depth i captures

def matchAt (s : ByteArray) (items : List Item) (i : Nat) : Found :=
  deeper depthLimit fun depth => run s items depth i []

def firstFrom (s : ByteArray) (items : List Item) (lets : Match → Bool) : Nat → Nat →
    Except String (Option (Nat × Match))
  | 0, _ => .ok none
  | fuel + 1, i =>
    match matchAt s items i with
    | .error message => .error message
    | .ok (some m) => if lets m then .ok (some (i, m)) else firstFrom s items lets fuel (i + 1)
    | .ok none => firstFrom s items lets fuel (i + 1)

def Capture.datum (s : ByteArray) (c : Capture) : Except String Datum :=
  match c.extent with
  | .unfinished => .error "unfinished capture"
  | .position => .ok (.ofNat (c.start + 1))
  | .closed n => .ok (.string (s.extract c.start (c.start + n)))

def captured (s : ByteArray) (m : Match) : Except String (List Datum) := m.captures.mapM (·.datum s)

def Match.data (s : ByteArray) (start : Nat) (m : Match) : Except String (List Datum) :=
  if m.captures.isEmpty then .ok [.string (s.extract start m.last)] else captured s m

def Match.referred (s : ByteArray) (start : Nat) (m : Match) (digit : Char) : Except String Datum :=
  let whole : Datum := .string (s.extract start m.last)
  if digit == '0' then .ok whole
  else match m.captures[captureNumber digit - 1]? with
    | some c => c.datum s
    | none =>
      if digit == '1' then .ok whole
      else .error ("invalid capture index %" ++ toString (captureNumber digit) ++ " in replacement string")

end Pattern

open Arguments Pattern

def failing {α : Type} (r : Except String α) : Checked α := r.mapError .failure

def plainFrom (s part : ByteArray) : Nat → Nat → Option Nat
  | 0, _ => none
  | fuel + 1, i => if s.extract i (i + part.size) == part then some i else plainFrom s part fuel (i + 1)

def special (c : Char) : Bool := "^$*+?.([%-".toList.contains c

def stringFind (wantsPlace : Bool) (args : List Datum) : Checked (List Datum) := do
  let s ← bytes args 1
  let p ← bytes args 2
  let first := startOf (← integerOr args 3 1).toInt s.size - 1
  if s.size < first then return [.nil]
  else if wantsPlace && ((arg args 4).isTruthy || !(byteChars p).any special) then
    return match plainFrom s p (s.size + 1 - p.size - first) first with
      | some i => [.ofNat (i + 1), .ofNat (i + p.size)]
      | none => [.nil]
  else
    let (anchored, items) := readAnchored (byteChars p)
    match ← failing (firstFrom s items (fun _ => true) (if anchored then 1 else s.size + 1 - first) first) with
    | none => return [.nil]
    | some (i, m) =>
      if wantsPlace then return .ofNat (i + 1) :: .ofNat m.last :: (← failing (captured s m))
      else failing (m.data s i)

def allMatches (args : List Datum) (wrong : Complaint → Heap → Step) (h : Heap) : Step :=
  -- its cells hold the string, the pattern, where to go on and where the last match ended
  let read : Checked (ByteArray × ByteArray × Int64) := do
    return (← bytes args 1, ← bytes args 2, ← integerOr args 3 1)
  match read with
  | .error c => wrong c h
  | .ok (s, p, i) =>
    let first := min (startOf i.toInt s.size - 1) (s.size + 1)
    claim functionSize (fun h =>
      let (cell, h) := h.addCell (.string s)
      let (_, h) := h.addCell (.string p)
      let (_, h) := h.addCell (.ofNat first)
      let (_, h) := h.addCell .nil
      let (a, h) := h.addRoutine (.library (.matchesStep cell))
      .finish [.function a] h) h

def nextMatch (h : Heap) (cell : Nat) : Except String (Option (Nat × List Datum)) :=
  -- a match that ends where the last one did is passed over
  match h.cell cell, h.cell (cell + 1), h.cell (cell + 2) with
  | .string s, .string p, .int i =>
    let i := i.toInt.toNat
    let fresh (m : Match) : Bool := h.cell (cell + 3) != .ofNat m.last
    match firstFrom s (read (byteChars p)) fresh (s.size + 1 - i) i with
    | .error message => .error message
    | .ok none => .ok none
    | .ok (some (i, m)) => (m.data s i).map fun ds => some (m.last, ds)
  | _, _, _ => .ok none

def matchesStep (cell : Nat) (wrong : Complaint → Heap → Step) (h : Heap) : Step :=
  match nextMatch h cell with
  | .error message => wrong (.failure message) h
  | .ok none => .finish [] h
  | .ok (some (last, ds)) => deliver ds ((h.setCell (cell + 2) (.ofNat last)).setCell (cell + 3) (.ofNat last))

def expand (refer : Char → Except String Datum) : List Char → Except String (List UInt8)
  | [] => .ok []
  | '%' :: '%' :: rest => do return 37 :: (← expand refer rest)
  | '%' :: c :: rest =>
    if c.isDigit then do
      let d ← refer c
      return (d.toBytes?.getD ByteArray.empty).toList ++ (← expand refer rest)
    else .error "invalid use of '%' in replacement string"
  | ['%'] => .error "invalid use of '%' in replacement string"
  | c :: rest => do return UInt8.ofNat c.toNat :: (← expand refer rest)

def given (wrong : Complaint → Heap → Step) (k : Option ByteArray → Heap → Step) (d : Datum) (h : Heap) :
    Step :=
  if !d.isTruthy then k none h
  else match d.toBytes? with
    | some t => k (some t) h
    | none => wrong (.failure ("invalid replacement value (a " ++ d.typeName ++ ")")) h

def replacement (r : Datum) (s : ByteArray) (start : Nat) (m : Match) (wrong : Complaint → Heap → Step)
    (k : Option ByteArray → Heap → Step) (h : Heap) : Step :=
  match r with
  | .function _ =>
    match m.data s start with
    | .ok ds => callOne r ds none (given wrong k) h
    | .error message => wrong (.failure message) h
  | .table _ =>
    match m.data s start with
    | .ok ds => index r (ds.headD .nil) .nowhere (given wrong k) h
    | .error message => wrong (.failure message) h
  | _ =>
    match expand (m.referred s start) (byteChars (r.toBytes?.getD ByteArray.empty)) with
    | .ok bs => k (some bs.toByteArray) h
    | .error message => wrong (.failure message) h

structure Replacing where
  subject : ByteArray
  anchored : Bool
  items : List Item
  replacement : Datum

structure Replaced where
  position : Nat
  lastEnd : Option Nat
  count : Nat
  changed : Bool
  text : ByteArray

def Replacing.result (g : Replacing) (r : Replaced) (h : Heap) : Step :=
  let count := Datum.ofNat r.count
  if r.changed then
    build (r.text ++ g.subject.extract r.position g.subject.size) (fun d h => .finish [d, count] h) h
  else .finish [.string g.subject, count] h

def Replacing.run (g : Replacing) (limit : Nat) (wrong : Complaint → Heap → Step) :
    Nat → Replaced → Heap → Step
  | 0, r, h => g.result r h
  | fuel + 1, r, h =>
    let again (r : Replaced) (h : Heap) : Step :=
      if g.anchored then g.result r h else .pause h fun h => Replacing.run g limit wrong fuel r h
    if limit ≤ r.count then g.result r h
    else match matchAt g.subject g.items r.position with
      | .error message => wrong (.failure message) h
      | .ok found =>
        match found.filter fun m => r.lastEnd != some m.last with
        | some m =>
          Library.replacement g.replacement g.subject r.position m wrong (fun t h =>
            again ⟨m.last, some m.last, r.count + 1, r.changed || t.isSome,
              r.text ++ t.getD (g.subject.extract r.position m.last)⟩ h) h
        | none =>
          if r.position < g.subject.size then
            again { r with
              position := r.position + 1
              text := r.text ++ g.subject.extract r.position (r.position + 1) } h
          else g.result r h

def canReplace : Datum → Bool
  | .int _ => true
  | .float _ => true
  | .string _ => true
  | .table _ => true
  | .function _ => true
  | _ => false

def replaceAll (args : List Datum) (wrong : Complaint → Heap → Step) (h : Heap) : Step :=
  let read : Checked (ByteArray × ByteArray × Int64) := do
    let s ← bytes args 1
    let p ← bytes args 2
    let limit ← integerOr args 4 (Int64.ofNat (s.size + 1))
    if !canReplace (arg args 3) then wrongType args 3 "string/function/table" else return (s, p, limit)
  match read with
  | .error c => wrong c h
  | .ok (s, p, limit) =>
    let (anchored, items) := readAnchored (byteChars p)
    Replacing.run ⟨s, anchored, items, arg args 3⟩ limit.toInt.toNat wrong (2 * s.size + 3)
      ⟨0, none, 0, false, ByteArray.empty⟩ h

end ScriptHost.Lua.Library
