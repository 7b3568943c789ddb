import ScriptHost.Lua.Syntax

/-!
# Parsing scripts

A recursive descent over the lexemes of a script.  The head of the lexemes is the current token; a
malformed token is reported as soon as it becomes current or is looked at.  Every rule takes a bound
on how deep it may call, and `Function.ofScript` starts with more than any script can need.
-/

set_option autoImplicit false

namespace ScriptHost.Lua

structure SyntaxFault where
  line : Nat
  message : ByteArray
deriving Inhabited

namespace Parser

structure Local where
  name : String
  fixed : Bool

structure Label where
  name : String
  line : Nat
  locals : Nat

structure Jump where
  label : String
  line : Nat
  locals : Nat

structure Scope where
  locals : List Local
  outer : List Local
  labels : List Label
  -- the jumps of the block, the first one first
  jumps : List Jump
  base : Nat

def Scope.empty : Scope := ⟨[], [], [], [], 0⟩

structure State where
  ahead : List Lexeme
  lastLine : Nat
  scope : Scope

abbrev Parse := StateT State (Except SyntaxFault)

structure Context where
  isVararg : Bool

def State.current (s : State) : Lexeme := s.ahead.headD ⟨.eof, s.lastLine, "<eof>".toUTF8⟩

def token : Parse Token := fun s => .ok (s.current.token, s)

def line : Parse Nat := fun s => .ok (s.current.line, s)

def lastLine : Parse Nat := fun s => .ok (s.lastLine, s)

def refuse {α : Type} (message : String) : Parse α :=
  fun s => .error ⟨s.current.line, message.toUTF8⟩

def refuseNear {α : Type} (message : String) : Parse α :=
  fun s => .error ⟨s.current.line, (message ++ " near ").toUTF8 ++ s.current.near⟩

def tooDeep {α : Type} : Parse α := refuseNear "chunk has too many syntax levels"

def sound (l : Lexeme) : Except SyntaxFault Unit :=
  match l.token with
  | .bad message near => .error ⟨l.line, (message ++ " near ").toUTF8 ++ near⟩
  | _ => .ok ()

def next : Parse Unit := fun s =>
  match s.ahead with
  | l :: m :: rest =>
    match sound m with
    | .error e => .error e
    | .ok () => .ok ((), { s with ahead := m :: rest, lastLine := l.line })
  | _ => .ok ((), { s with lastLine := s.current.line })

def isToken (t : Token) : Parse Bool := return (← token) == t

def isSymbol (text : String) : Parse Bool := isToken (.symbol text)

def isKeyword (text : String) : Parse Bool := isToken (.keyword text)

def accept (t : Token) : Parse Bool := do
  if (← token) == t then
    next
    return true
  else return false

def expect (t : Token) (shown : String) : Parse Unit := do
  if (← token) == t then next else refuseNear ("'" ++ shown ++ "' expected")

def expectSymbol (text : String) : Parse Unit := expect (.symbol text) text

def expectKeyword (text : String) : Parse Unit := expect (.keyword text) text

def expectMatch (t : Token) (shown opening : String) (opened : Nat) : Parse Unit := do
  if (← token) == t then next
  else if opened == (← line) then expect t shown
  else refuseNear ("'" ++ shown ++ "' expected (to close '" ++ opening ++ "' at line "
    ++ toString opened ++ ")")

def expectEnd (opening : String) (opened : Nat) : Parse Unit :=
  expectMatch (.keyword "end") "end" opening opened

def name : Parse ByteArray := do
  match ← token with
  | .name x => do
    next
    return x
  | _ => refuseNear "<name> expected"

def identifier : Parse String := return Utf8.lossy (← name)

def parameter : Parse String := do
  match ← token with
  | .name x => do
    next
    return Utf8.lossy x
  | _ => refuseNear "<name> or '...' expected"

def atBlockEnd : Parse Bool := do
  match ← token with
  | .eof => return true
  | .keyword "else" => return true
  | .keyword "elseif" => return true
  | .keyword "end" => return true
  | .keyword "until" => return true
  | _ => return false

inductive Operator where
  | arithmetic (op : Arithmetic)
  | compare (op : Comparison)
  | concat
  | both
  | either

def operator? : Token → Option (Operator × Nat × Nat)
  | .symbol "+" => some (.arithmetic .add, 10, 10)
  | .symbol "-" => some (.arithmetic .sub, 10, 10)
  | .symbol "*" => some (.arithmetic .mul, 11, 11)
  | .symbol "%" => some (.arithmetic .mod, 11, 11)
  | .symbol "^" => some (.arithmetic .pow, 14, 13)
  | .symbol "/" => some (.arithmetic .div, 11, 11)
  | .symbol "//" => some (.arithmetic .idiv, 11, 11)
  | .symbol "&" => some (.arithmetic .band, 6, 6)
  | .symbol "|" => some (.arithmetic .bor, 4, 4)
  | .symbol "~" => some (.arithmetic .bxor, 5, 5)
  | .symbol "<<" => some (.arithmetic .shl, 7, 7)
  | .symbol ">>" => some (.arithmetic .shr, 7, 7)
  | .symbol ".." => some (.concat, 9, 8)
  | .symbol "==" => some (.compare .eq, 3, 3)
  | .symbol "~=" => some (.compare .ne, 3, 3)
  | .symbol "<" => some (.compare .lt, 3, 3)
  | .symbol "<=" => some (.compare .le, 3, 3)
  | .symbol ">" => some (.compare .gt, 3, 3)
  | .symbol ">=" => some (.compare .ge, 3, 3)
  | .keyword "and" => some (.both, 2, 2)
  | .keyword "or" => some (.either, 1, 1)
  | _ => none

def unary? : Token → Option Unary
  | .keyword "not" => some .not
  | .symbol "-" => some .negate
  | .symbol "~" => some .complement
  | .symbol "#" => some .length
  | _ => none

def unaryBinding : Nat := 12

def concatLine : Expr → Nat → Nat
  -- a chain stands on the line of its last operator
  | .concat _ _ line, _ => line
  | .single e, line => concatLine e line
  | _, line => line

def Operator.apply (op : Operator) (left right : Expr) (line endLine : Nat) : Expr :=
  -- comparisons are made on the line where the right operand ends
  match op with
  | .arithmetic op => .arithmetic op left right line
  | .compare op => .compare op left right endLine
  | .concat => .concat left right (concatLine right line)
  | .both => .both left right
  | .either => .either left right

def isTarget : Expr → Bool
  | .name _ _ => true
  | .index _ _ _ => true
  | _ => false

def settle (e : Expr) : Parse Expr := do
  -- a global variable, field or item is looked up once the token after it says that nothing is
  -- assigned to it, and on the line of that token
  match e with
  | .index target key _ => return .index target key (← lastLine)
  | .name x _ => return .name x (← lastLine)
  | e => return e

def settleLast : List Expr → Parse (List Expr)
  | [] => return []
  | [e] => return [← settle e]
  | e :: rest => return e :: (← settleLast rest)

def settleItem : List Field → Parse (List Field)
  | [] => return []
  | [.item e] => return [.item (← settle e)]
  | f :: rest => return f :: (← settleItem rest)

def isCall : Expr → Bool
  | .call _ _ _ => true
  | .method _ _ _ _ _ => true
  | _ => false

def localAttribute : Parse (Bool × Bool) := do
  if ← accept (.symbol "<") then
    let x ← identifier
    expectSymbol ">"
    if x == "const" then return (true, false)
    else if x == "close" then return (true, true)
    else refuse ("unknown attribute '" ++ x ++ "'")
  else return (false, false)

def atNamedField : Parse Bool := fun s =>
  match s.ahead with
  | ⟨.name _, _, _⟩ :: l :: _ => (sound l).map fun () => (l.token == .symbol "=", s)
  | _ => .ok (false, s)

def declare (vs : List Local) : Parse Unit :=
  modify fun s => { s with scope.locals := vs.reverse ++ s.scope.locals }

def declareNames (names : List String) : Parse Unit := declare (names.map fun x => ⟨x, false⟩)

def checkAssigned (e : Expr) : Parse Unit := do
  match e with
  | .name x _ =>
    let scope := (← get).scope
    match (scope.locals ++ scope.outer).find? (·.name == x) with
    | some v => if v.fixed then refuse ("attempt to assign to const variable '" ++ x ++ "'")
    | none => return ()
  | _ => return ()

def findLabel (name : String) : Parse (Option Label) :=
  return (← get).scope.labels.find? (·.name == name)

def jump (label : String) (line : Nat) : Parse Stat := do
  if (← findLabel label).isNone then
    modify fun s => { s with
      scope.jumps := s.scope.jumps ++ [⟨label, line, s.scope.locals.length⟩] }
  return .jump label

def Scope.skipped? (s : Scope) (j : Jump) (l : Label) : Option Local :=
  if j.locals < l.locals then s.locals.reverse[j.locals]? else none

def declareLabel (name : String) (line : Nat) (isLast : Bool) : Parse Unit := do
  -- after the last label of a block its local variables are out of sight
  match ← findLabel name with
  | some l => refuse ("label '" ++ name ++ "' already defined on line " ++ toString l.line)
  | none =>
    let scope := (← get).scope
    let l : Label := ⟨name, line, if isLast then scope.base else scope.locals.length⟩
    let (here, others) := scope.jumps.partition (·.label == name)
    match here.findSome? fun j => (scope.skipped? j l).map fun v => (j, v) with
    | some (j, v) =>
      refuse ("<goto " ++ name ++ "> at line " ++ toString j.line ++ " jumps into the scope of local '"
        ++ v.name ++ "'")
    | none => set { ← get with scope := { scope with labels := l :: scope.labels, jumps := others } }

def Scope.after (before inside : Scope) (isLoop : Bool) : Scope :=
  -- the jumps that are left are those of the block around; the end of a loop is where its breaks go
  let left := if isLoop then inside.jumps.filter (·.label != loopEnd) else inside.jumps
  { before with
    jumps := before.jumps ++ left.map fun j => { j with locals := before.locals.length } }

def inScope {α : Type} (isLoop : Bool) (read : Parse α) : Parse α := do
  let before := (← get).scope
  modify fun s => { s with scope.jumps := [], scope.base := before.locals.length }
  let r ← read
  modify fun s => { s with scope := before.after s.scope isLoop }
  return r

def checkJumps : Parse Unit := do
  match (← get).scope.jumps with
  | [] => return ()
  | j :: _ =>
    if j.label == loopEnd then refuse ("break outside a loop at line " ++ toString j.line)
    else refuse ("no visible label '" ++ j.label ++ "' for <goto> at line " ++ toString j.line)

def inFunction {α : Type} (read : Parse α) : Parse α := do
  let around := (← get).scope
  modify fun s => { s with scope := { Scope.empty with outer := around.locals ++ around.outer } }
  let r ← read
  checkJumps
  modify fun s => { s with scope := around }
  return r

def constant (e : Expr) : Parse Expr := do
  next
  return e

mutual

def block : Nat → Context → Parse Block
  | 0, _ => tooDeep
  | fuel + 1, c => do
    if ← atBlockEnd then return []
    else if ← accept (.keyword "return") then return [← returned fuel c]
    else
      let here ← statement fuel c
      let rest ← block fuel c
      return here ++ rest

def returned : Nat → Context → Parse Stat
  | 0, _ => tooDeep
  | fuel + 1, c => do
    let values ← if (← atBlockEnd) || (← isSymbol ";") then pure [] else exprList fuel c
    let _ ← accept (.symbol ";")
    return .ret values

def statement : Nat → Context → Parse (List Stat)
  | 0, _ => tooDeep
  | fuel + 1, c => do
    let opened ← line
    match ← token with
    | .symbol ";" => do
      next
      return []
    | .keyword "if" => do
      next
      return [← branch fuel c opened]
    | .keyword "while" => do
      next
      let condition ← expr fuel c 0
      expectKeyword "do"
      let body ← inScope true (block fuel c)
      expectEnd "while" opened
      return [.loopWhile condition body]
    | .keyword "do" => do
      next
      let body ← inScope false (block fuel c)
      expectEnd "do" opened
      return [.block body]
    | .keyword "for" => do
      next
      return [← loopFor fuel c opened]
    | .keyword "repeat" => do
      next
      inScope true do
        let body ← block fuel c
        expectMatch (.keyword "until") "until" "repeat" opened
        return [.loopUntil body (← expr fuel c 0)]
    | .keyword "function" => do
      next
      return [← functionStat fuel opened]
    | .keyword "local" => do
      next
      if ← accept (.keyword "function") then
        let x ← identifier
        declareNames [x]
        return [.localFunction x (← functionBody fuel false (← line))]
      else localStat fuel c
    | .symbol "::" => do
      next
      labels fuel c opened
    | .keyword "break" => do
      next
      return [← jump loopEnd opened]
    | .keyword "goto" => do
      next
      let here ← line
      return [← jump (← identifier) here]
    | _ => do return [← exprStat fuel c]

def labels : Nat → Context → Nat → Parse (List Stat)
  | 0, _, _ => tooDeep
  | fuel + 1, c, opened => do
    let x ← identifier
    expectSymbol "::"
    let more ← idle fuel c
    declareLabel x opened ((← atBlockEnd) && !(← isKeyword "until"))
    return more ++ [.label x]
termination_by structural fuel => fuel

def idle : Nat → Context → Parse (List Stat)
  | 0, _ => tooDeep
  | fuel + 1, c => do
    if (← isSymbol ";") || (← isSymbol "::") then
      let here ← statement fuel c
      return here ++ (← idle fuel c)
    else return []

def localStat : Nat → Context → Parse (List Stat)
  | 0, _ => tooDeep
  | fuel + 1, c => do
    let vs ← localNames fuel false
    let values ← if ← accept (.symbol "=") then exprList fuel c else pure []
    declare (vs.map (·.1))
    let close (x : String) : Parse Stat := return .close x (← lastLine)
    let closed ← (vs.filter (·.2)).mapM fun v => close v.1.name
    return .locals (vs.map (·.1.name)) values :: closed

def localNames : Nat → Bool → Parse (List (Local × Bool))
  -- only one variable may be closed
  | 0, _ => tooDeep
  | fuel + 1, anyClosed => do
    let x ← identifier
    let (fixed, closed) ← localAttribute
    if anyClosed && closed then refuse "multiple to-be-closed variables in local list"
    else if ← accept (.symbol ",") then
      return (⟨x, fixed⟩, closed) :: (← localNames fuel (anyClosed || closed))
    else return [(⟨x, fixed⟩, closed)]
termination_by structural fuel => fuel

def branch : Nat → Context → Nat → Parse Stat
  | 0, _, _ => tooDeep
  | fuel + 1, c, opened => do
    let condition ← expr fuel c 0
    expectKeyword "then"
    let condition ← settle condition
    let yes ← inScope false (block fuel c)
    if ← accept (.keyword "elseif") then
      return .branch condition yes [← branch fuel c opened]
    else
      let no ← if ← accept (.keyword "else") then inScope false (block fuel c) else pure []
      expectEnd "if" opened
      return .branch condition yes no
termination_by structural fuel => fuel

def loopFor : Nat → Context → Nat → Parse Stat
  | 0, _, _ => tooDeep
  | fuel + 1, c, opened => do
    let x ← identifier
    if ← accept (.symbol "=") then
      let start ← expr fuel c 0
      expectSymbol ","
      let limit ← expr fuel c 0
      let step ← if ← accept (.symbol ",") then some <$> expr fuel c 0 else pure none
      let doLine ← line
      expectKeyword "do"
      let body ← loopBody fuel c [x]
      expectEnd "for" opened
      return .count x start limit step body doLine
    else if (← isSymbol ",") || (← isKeyword "in") then
      let more ← if ← accept (.symbol ",") then loopNames fuel else pure []
      expectKeyword "in"
      let callLine ← line
      let values ← exprList fuel c
      expectKeyword "do"
      let body ← loopBody fuel c (x :: more)
      expectEnd "for" opened
      return .iterate (x :: more) values body callLine
    else refuseNear "'=' or 'in' expected"
termination_by structural fuel => fuel

def loopBody : Nat → Context → List String → Parse Block
  | 0, _, _ => tooDeep
  | fuel + 1, c, names =>
    inScope true do
      declareNames names
      inScope false (block fuel c)
termination_by structural fuel => fuel

def loopNames : Nat → Parse (List String)
  | 0 => tooDeep
  | fuel + 1 => do
    let x ← identifier
    if ← accept (.symbol ",") then return x :: (← loopNames fuel) else return [x]

def functionStat : Nat → Nat → Parse Stat
  | 0, _ => tooDeep
  | fuel + 1, opened => do
    let x ← identifier
    let (target, isMethod) ← functionName fuel (.name x (← lastLine))
    let f ← functionBody fuel isMethod opened
    checkAssigned target
    return .assign [target] [.function f] opened
termination_by structural fuel => fuel

def functionName : Nat → Expr → Parse (Expr × Bool)
  | 0, _ => tooDeep
  | fuel + 1, target => do
    if ← accept (.symbol ".") then
      let k ← name
      functionName fuel (.index target (.string k) (← lastLine))
    else if ← accept (.symbol ":") then
      let k ← name
      return (.index target (.string k) (← lastLine), true)
    else return (target, false)

def functionBody : Nat → Bool → Nat → Parse Function
  | 0, _, _ => tooDeep
  | fuel + 1, isMethod, opened => do
    inFunction do
      expectSymbol "("
      let (params, isVararg) ← if ← isSymbol ")" then pure ([], false) else parameters fuel
      expectSymbol ")"
      let params := if isMethod then "self" :: params else params
      declareNames params
      let body ← block fuel ⟨isVararg⟩
      expectEnd "function" opened
      return .mk params isVararg body
termination_by structural fuel => fuel

def parameters : Nat → Parse (List String × Bool)
  | 0 => tooDeep
  | fuel + 1 => do
    if ← accept (.symbol "...") then return ([], true)
    else
      let x ← parameter
      if ← accept (.symbol ",") then
        let (rest, isVararg) ← parameters fuel
        return (x :: rest, isVararg)
      else return ([x], false)

def exprStat : Nat → Context → Parse Stat
  | 0, _ => tooDeep
  | fuel + 1, c => do
    let e ← suffixed fuel c
    if (← isSymbol "=") || (← isSymbol ",") then
      let targets ← targetList fuel c e
      expectSymbol "="
      let values ← exprList fuel c
      return .assign targets values (← lastLine)
    else if isCall e then return .call e
    else refuseNear "syntax error"

def targetList : Nat → Context → Expr → Parse (List Expr)
  | 0, _, _ => tooDeep
  | fuel + 1, c, e => do
    if !isTarget e then refuseNear "syntax error"
    else
      checkAssigned e
      if ← accept (.symbol ",") then
        let d ← suffixed fuel c
        return e :: (← targetList fuel c d)
      else return [e]

def exprList : Nat → Context → Parse (List Expr)
  | 0, _ => tooDeep
  | fuel + 1, c => do
    let e ← expr fuel c 0
    if ← accept (.symbol ",") then
      let e ← settle e
      return e :: (← exprList fuel c)
    else return [e]

def expr : Nat → Context → Nat → Parse Expr
  | 0, _, _ => tooDeep
  | fuel + 1, c, limit => do
    match unary? (← token) with
    | some op => do
      let here ← line
      next
      let e ← expr fuel c unaryBinding
      operators fuel c limit (.unary op e here)
    | none => do
      let e ← simple fuel c
      operators fuel c limit e
termination_by structural fuel => fuel

def operators : Nat → Context → Nat → Expr → Parse Expr
  | 0, _, _, _ => tooDeep
  | fuel + 1, c, limit, left => do
    match operator? (← token) with
    | some (op, bindsLeft, bindsRight) =>
      if limit < bindsLeft then do
        let here ← line
        next
        let left ← settle left
        let right ← expr fuel c bindsRight
        operators fuel c limit (op.apply left right here (← lastLine))
      else return left
    | none => return left
termination_by structural fuel => fuel

def simple : Nat → Context → Parse Expr
  | 0, _ => tooDeep
  | fuel + 1, c => do
    match ← token with
    | .int n => constant (.number (.int n))
    | .float x => constant (.number (.float x))
    | .string x => constant (.string x)
    | .keyword "nil" => constant .nil
    | .keyword "true" => constant (.bool true)
    | .keyword "false" => constant (.bool false)
    | .symbol "..." =>
      if c.isVararg then constant .varargs
      else refuseNear "cannot use '...' outside a vararg function"
    | .symbol "\x7b" => tableOf fuel c
    | .keyword "function" => do
      let opened ← line
      next
      return .function (← functionBody fuel false opened)
    | _ => suffixed fuel c

def suffixed : Nat → Context → Parse Expr
  | 0, _ => tooDeep
  | fuel + 1, c => do
    let opened ← line
    match ← token with
    | .name _ => do
      let x ← identifier
      suffixes fuel c (.name x (← lastLine))
    | .symbol "(" => do
      next
      let e ← expr fuel c 0
      expectMatch (.symbol ")") ")" "(" opened
      suffixes fuel c (.single (← settle e))
    | _ => refuseNear "unexpected symbol"

def suffixes : Nat → Context → Expr → Parse Expr
  | 0, _, _ => tooDeep
  | fuel + 1, c, e => do
    match ← token with
    | .symbol "." => do
      next
      let k ← name
      suffixes fuel c (.index e (.string k) (← lastLine))
    | .symbol "[" => do
      next
      let k ← expr fuel c 0
      expectSymbol "]"
      suffixes fuel c (.index e k (← lastLine))
    | .symbol ":" => do
      next
      let k ← name
      let nameLine ← lastLine
      let e ← settle e
      let here ← line
      let args ← arguments fuel c
      suffixes fuel c (.method e k args here nameLine)
    | .symbol "(" => call fuel c e
    | .symbol "\x7b" => call fuel c e
    | .string _ => call fuel c e
    | _ => return e

def call : Nat → Context → Expr → Parse Expr
  | 0, _, _ => tooDeep
  | fuel + 1, c, e => do
    let here ← line
    let args ← arguments fuel c
    suffixes fuel c (.call e args here)

def arguments : Nat → Context → Parse (List Expr)
  | 0, _ => tooDeep
  | fuel + 1, c => do
    match ← token with
    | .string x => do
      next
      return [.string x]
    | .symbol "\x7b" => return [← tableOf fuel c]
    | .symbol "(" => do
      let opened ← line
      next
      if ← accept (.symbol ")") then return []
      else
        let args ← exprList fuel c
        expectMatch (.symbol ")") ")" "(" opened
        settleLast args
    | _ => refuseNear "function arguments expected"

def tableOf : Nat → Context → Parse Expr
  | 0, _ => tooDeep
  | fuel + 1, c => do
    let opened ← line
    expectSymbol "\x7b"
    let fields ← tableFields fuel c
    expectMatch (.symbol "\x7d") "\x7d" "\x7b" opened
    return .table (← settleItem fields)

def tableFields : Nat → Context → Parse (List Field)
  | 0, _ => tooDeep
  | fuel + 1, c => do
    if ← isSymbol "\x7d" then return []
    else
      let f ← tableField fuel c
      if (← accept (.symbol ",")) || (← accept (.symbol ";")) then
        let f ← settleItem [f]
        return f ++ (← tableFields fuel c)
      else return [f]

def tableField : Nat → Context → Parse Field
  | 0, _ => tooDeep
  | fuel + 1, c => do
    if ← atNamedField then
      let k ← name
      expectSymbol "="
      let e ← expr fuel c 0
      return .entry (.string k) e (← lastLine)
    else if ← accept (.symbol "[") then
      let k ← expr fuel c 0
      expectSymbol "]"
      expectSymbol "="
      let e ← expr fuel c 0
      return .entry k e (← lastLine)
    else return .item (← expr fuel c 0)

end

def script (fuel : Nat) : Parse Block := do
  let body ← block fuel ⟨true⟩
  if ← isToken .eof then
    checkJumps
    return body
  else refuseNear "<eof> expected"

end Parser

def Function.ofScript (text : ByteArray) : Except SyntaxFault Function :=
  match Lexer.ofScript text with
  | [] => .ok (.mk [] true [])
  | l :: rest =>
    match Parser.sound l with
    | .error e => .error e
    | .ok () =>
      match Parser.script (24 * rest.length + 64) ⟨l :: rest, 1, .empty⟩ with
      | .error e => .error e
      | .ok (body, _) => .ok (.mk [] true body)

end ScriptHost.Lua
