import ScriptHost.Lua.Step

/-!
# Evaluation of scripts

Expressions and statements as steps.  An expression passes its values on, a statement the
environment after it or a jump; a statement that returns ends the function at once.  Operands are evaluated
from left to right; an assignment evaluates its targets, then its values, and stores from right to left.
A loop asks for another turn, so that every turn is a step of its own.  A jump goes out of the blocks around
it until one has its label: further down, or further up where the label waits for it.

Global variables are fields of a variable `_ENV`, which every script has and any script may declare again.
-/

set_option autoImplicit false

namespace ScriptHost.Lua

namespace Env

def find? (env : Env) (x : String) : Option Variable := env.visible.find? (·.name == x)

def place (env : Env) (line : Nat) : Option Place := some ⟨env.chunk, line⟩

def declare (env : Env) (x : String) (cell : Nat) : Env :=
  { env with visible := ⟨x, cell, env.level⟩ :: env.visible }

def bind (env : Env) : List String → List Datum → Heap → Env × Heap
  | [], _, h => (env, h)
  | x :: xs, vs, h =>
    let (c, h) := h.addCell (vs.headD .nil)
    bind (env.declare x c) xs vs.tail h

def globals (env : Env) (h : Heap) : Datum :=
  match env.find? environment with
  | some v => h.cell v.cell
  | none => .table h.globals

def nameOf (env : Env) (v : Variable) : Naming :=
  ⟨if v.level = env.level then "local" else "upvalue", v.name.toUTF8⟩

def globalSpot (env : Env) (line : Nat) : Spot :=
  ⟨env.place line, (env.find? environment).map env.nameOf⟩

end Env

def leave : Nat → (Heap → Step) → Heap → Step
  | 0, k, h => k h
  | n + 1, k, h => .leave h (leave n k)

def Flow.out (env : Env) (flow : Flow) (k : Flow → Heap → Step) (h : Heap) : Step :=
  match flow with
  | .next inner => leave (inner.pending - env.pending) (k (.next env)) h
  | .jump label pending => leave (pending - env.pending) (k (.jump label env.pending)) h

def enclose (name : String) (d : Datum) (place : Option Place) (k : Heap → Step) (h : Heap) : Step :=
  if d.isTruthy && (h.metamethod d "__close").isNil then
    raise place ("variable '" ++ name ++ "' got a non-closable value") h
  else .enclose d h k

inductive Target where
  | cell (address : Nat)
  | slot (object key : Datum) (spot : Spot)

def Target.store (t : Target) (value : Datum) (k : Heap → Step) (h : Heap) : Step :=
  match t with
  | .cell address => k (h.setCell address value)
  | .slot object key spot => setIndex object key value spot k h

def storeAll : List Target → List Datum → (Heap → Step) → Heap → Step
  -- from the last target to the first; a missing value is nil
  | [], _, k, h => k h
  | t :: ts, vs, k, h => storeAll ts vs.tail (fun h => t.store (vs.headD .nil) k h) h

namespace Expr

def fieldName : Expr → ByteArray
  -- only constant keys are known
  | .string s => s
  | .single e => fieldName e
  | .number (.int n) => (if 0 ≤ n && n ≤ 255 then "integer index" else "?").toUTF8
  | _ => "?".toUTF8

def isEnvironment : Expr → Bool
  | .name x _ => x == environment
  | .single e => isEnvironment e
  | _ => false

def naming? (e : Expr) (env : Env) : Option Naming :=
  match e with
  | .name x _ =>
    match env.find? x with
    | some v => some (env.nameOf v)
    | none => some ⟨"global", x.toUTF8⟩
  | .index object key _ => some ⟨if object.isEnvironment then "global" else "field", fieldName key⟩
  | .string s => some ⟨"constant", s⟩
  | .single e => naming? e env
  | _ => none

def isMulti : Expr → Bool
  | .varargs => true
  | .call _ _ _ => true
  | .method _ _ _ _ _ => true
  | _ => false

end Expr

def itemCount : List Field → Nat
  | [] => 0
  | [.item e] => if e.isMulti then 0 else 1
  | .item _ :: rest => itemCount rest + 1
  | .entry _ _ _ :: rest => itemCount rest

def entryCount (fields : List Field) : Nat :=
  fields.countP fun f => match f with
    | .entry _ _ _ => true
    | .item _ => false

mutual

def Expr.eval (e : Expr) (env : Env) (k : List Datum → Heap → Step) (h : Heap) : Step :=
  match e with
  | .nil => k [.nil] h
  | .bool b => k [.bool b] h
  | .number n => k [n.toDatum] h
  | .string s => k [.string s] h
  | .varargs => k env.extra h
  | .name x line =>
    match env.find? x with
    | some v => k [h.cell v.cell] h
    | none => index (env.globals h) (.text x) (env.globalSpot line) (fun v h => k [v] h) h
  | .index object key line =>
    Expr.eval object env (fun o h =>
      Expr.eval key env (fun x h =>
        index (o.headD .nil) (x.headD .nil) ⟨env.place line, object.naming? env⟩
          (fun v h => k [v] h) h) h) h
  | .call fn args line =>
    Expr.eval fn env (fun f h =>
      Expr.evalList args env (fun vs h =>
        .call (f.headD .nil) vs ⟨env.place line, fn.naming? env⟩ h k) h) h
  | .method object name args line nameLine =>
    Expr.eval object env (fun o h =>
      index (o.headD .nil) (.string name) ⟨env.place nameLine, object.naming? env⟩ (fun f h =>
        Expr.evalList args env (fun vs h =>
          .call f (o.headD .nil :: vs) ⟨env.place line, some ⟨"method", name⟩⟩ h k) h) h) h
  | .function f =>
    claim functionSize (fun h =>
      let (a, h) := h.addRoutine (.script f env)
      k [.function a] h) h
  | .arithmetic op left right line =>
    Expr.eval left env (fun a h =>
      Expr.eval right env (fun b h =>
        arithmetic op (a.headD .nil) (b.headD .nil) (left.naming? env) (right.naming? env)
          (env.place line) (fun v h => k [v] h) h) h) h
  | .compare op left right line =>
    Expr.eval left env (fun a h =>
      Expr.eval right env (fun b h =>
        compare op (a.headD .nil) (b.headD .nil) (env.place line)
          (fun r h => k [.bool r] h) h) h) h
  | .concat left right line =>
    Expr.eval left env (fun a h =>
      Expr.eval right env (fun b h =>
        concatenate (a.headD .nil) (b.headD .nil) (left.naming? env) (right.naming? env)
          (env.place line) (fun v h => k [v] h) h) h) h
  | .unary op operand line =>
    Expr.eval operand env (fun a h =>
      let a := a.headD .nil
      let spot : Spot := ⟨env.place line, operand.naming? env⟩
      match op with
      | .not => k [.bool !a.isTruthy] h
      | .negate => negate a spot (fun v h => k [v] h) h
      | .complement => complement a spot (fun v h => k [v] h) h
      | .length => length a spot (fun v h => k [v] h) h) h
  | .both left right =>
    Expr.eval left env (fun a h =>
      if (a.headD .nil).isTruthy then Expr.eval right env (fun b h => k [b.headD .nil] h) h
      else k [a.headD .nil] h) h
  | .either left right =>
    Expr.eval left env (fun a h =>
      if (a.headD .nil).isTruthy then k [a.headD .nil] h
      else Expr.eval right env (fun b h => k [b.headD .nil] h) h) h
  | .single e => Expr.eval e env (fun vs h => k [vs.headD .nil] h) h
  | .table fields =>
    claim tableSize (fun h =>
      let (a, h) := h.allocate (.sized (itemCount fields) (entryCount fields))
      Field.evalList fields env a (fun items h =>
        claim (entrySize * items.length) (fun h =>
          k [.table a] (h.modify a fun t => t.setItems items)) h) h) h

def Expr.evalList (es : List Expr) (env : Env) (k : List Datum → Heap → Step) (h : Heap) : Step :=
  match es with
  | [] => k [] h
  | e :: rest =>
    Expr.eval e env (fun vs h =>
      match rest with
      | [] => k vs h
      | _ :: _ => Expr.evalList rest env (fun ws h => k (vs.headD .nil :: ws) h) h) h

def Field.evalList (fields : List Field) (env : Env) (address : Nat)
    (k : List Datum → Heap → Step) (h : Heap) : Step :=
  match fields with
  | [] => k [] h
  | .item e :: rest =>
    Expr.eval e env (fun vs h =>
      match rest with
      | [] => k vs h
      | _ :: _ =>
        Field.evalList rest env address (fun ws h => k (vs.headD .nil :: ws) h) h) h
  | .entry key value line :: rest =>
    Expr.eval key env (fun x h =>
      Expr.eval value env (fun v h =>
        rawSet address (x.headD .nil) (v.headD .nil) (env.place line)
          (fun h => Field.evalList rest env address k h) h) h) h

end

def Expr.value (e : Expr) (env : Env) (k : Datum → Heap → Step) (h : Heap) : Step :=
  e.eval env (fun vs h => k (vs.headD .nil) h) h

def Expr.evalTargets (es : List Expr) (env : Env) (line : Nat) (k : List Target → Heap → Step)
    (h : Heap) : Step :=
  match es with
  | [] => k [] h
  | .name x _ :: rest =>
    let target : Target := match env.find? x with
      | some v => .cell v.cell
      | none => .slot (env.globals h) (.text x) (env.globalSpot line)
    Expr.evalTargets rest env line (fun ts h => k (target :: ts) h) h
  | .index object key _ :: rest =>
    object.value env (fun o h =>
      key.value env (fun x h =>
        let target : Target := .slot o x ⟨env.place line, object.naming? env⟩
        Expr.evalTargets rest env line (fun ts h => k (target :: ts) h) h) h) h
  | _ :: rest => Expr.evalTargets rest env line k h

def countLimit? (start : Int64) (limit : Number) (step : Int64) : Option Int64 :=
  -- nothing if there is no turn
  let bound : Option Int64 := match limit with
    | .int n => some n
    | .float x =>
      match Datum.wholeInt64? (if step < 0 then x.ceil else x.floor) with
      | some n => some n
      | none =>
        if Binary64.blt .zero x then if step < 0 then none else some Int64.maxValue
        else if 0 < step then none else some Int64.minValue
  match bound with
  | none => none
  | some b => if (if 0 < step then b < start else start < b) then none else some b

def countLoop (name : String) (start limit step : Datum) (body : Block) (env : Env) :
    Except String (Option Loop) :=
  let wrong (what : String) (d : Datum) : Except String (Option Loop) :=
    .error ("bad 'for' " ++ what ++ " (number expected, got " ++ d.typeName ++ ")")
  match start, step with
  | .int i, .int s =>
    if s = 0 then .error "'for' step is zero"
    else match limit.toNumber? with
      | none => wrong "limit" limit
      | some l =>
        .ok ((countLimit? i l s).map fun b =>
          let distance := if 0 < s then b.toInt - i.toInt else i.toInt - b.toInt
          .countInt name i (distance.toNat / s.toInt.natAbs + 1) s body env)
  | _, _ =>
    match limit.toNumber?, step.toNumber?, start.toNumber? with
    | none, _, _ => wrong "limit" limit
    | _, none, _ => wrong "step" step
    | _, _, none => wrong "initial value" start
    | some l, some s, some i =>
      let x := i.toFloat
      let l := l.toFloat
      let s := s.toFloat
      if s.beq .zero then .error "'for' step is zero"
      else if (if Binary64.blt .zero s then x.ble l else l.ble x) then
        .ok (some (.countFloat name x l s body env))
      else .ok none

mutual

def Stat.exec (s : Stat) (env : Env) (k : Flow → Heap → Step) (h : Heap) : Step :=
  match s with
  | .locals names values =>
    Expr.evalList values env (fun vs h =>
      let (env, h) := env.bind names vs h
      k (.next env) h) h
  | .localFunction name f =>
    let (c, h) := h.addCell .nil
    let env := env.declare name c
    claim functionSize (fun h =>
      let (a, h) := h.addRoutine (.script f env)
      k (.next env) (h.setCell c (.function a))) h
  | .assign targets values line =>
    Expr.evalTargets targets env line (fun ts h =>
      Expr.evalList values env (fun vs h =>
        storeAll ts vs (fun h => k (.next env) h) h) h) h
  | .call e => e.eval env (fun _ h => k (.next env) h) h
  | .close name line =>
    enclose name ((env.find? name).elim .nil fun v => h.cell v.cell) (env.place line)
      (k (.next { env with pending := env.pending + 1 })) h
  | .block body => Stat.execAll body none env (fun flow => flow.out env k) h
  | .loopWhile condition body => .again (.whileTrue condition body env) h k
  | .loopUntil body condition => .again (.untilTrue body condition env) h k
  | .branch condition yes no =>
    condition.value env (fun v h =>
      if v.isTruthy then Stat.execAll yes none env (fun flow => flow.out env k) h
      else Stat.execAll no none env (fun flow => flow.out env k) h) h
  | .count name start limit step body line =>
    start.value env (fun i h =>
      limit.value env (fun l h =>
        let enter (s : Datum) (h : Heap) : Step :=
          match countLoop name i l s body env with
          | .error message => raise (env.place line) message h
          | .ok none => k (.next env) h
          | .ok (some loop) => .again loop h k
        match step with
        | none => enter (.int 1) h
        | some e => e.value env enter h) h) h
  | .iterate names values body line =>
    Expr.evalList values env (fun vs h =>
      let loop (env : Env) : Loop :=
        .iterate names (vs.getD 0 .nil) (vs.getD 1 .nil) (vs.getD 2 .nil) body env line
      match vs.getD 3 .nil with
      | .nil => .again (loop env) h k
      | d =>
        enclose "(for state)" d (env.place line) (fun h =>
          .again (loop { env with pending := env.pending + 1 }) h fun flow => flow.out env k) h) h
  | .ret [.call fn args line] =>
    fn.value env (fun f h =>
      Expr.evalList args env (fun vs h =>
        .tail f vs ⟨env.place line, fn.naming? env⟩ h) h) h
  | .ret [.method object name args line nameLine] =>
    object.value env (fun o h =>
      index o (.string name) ⟨env.place nameLine, object.naming? env⟩ (fun f h =>
        Expr.evalList args env (fun vs h =>
          .tail f (o :: vs) ⟨env.place line, some ⟨"method", name⟩⟩ h) h) h) h
  | .ret values => Expr.evalList values env (fun vs h => .finish vs h) h
  | .label _ => k (.next env) h
  | .jump wanted => k (.jump wanted env.pending) h

def Stat.execAll (body : Block) (sought : Option String) (env : Env) (k : Flow → Heap → Step)
    (h : Heap) : Step :=
  -- from a label on if one is sought
  match body, sought with
  | [], none => k (.next env) h
  | [], some wanted => k (.jump wanted env.pending) h
  | .label name :: rest, sought =>
    .again (.labelled name rest (if sought = some name then none else sought) env) h k
  | _ :: rest, some wanted => Stat.execAll rest (some wanted) env k h
  | s :: rest, none =>
    s.exec env (fun flow h =>
      match flow with
      | .next env => Stat.execAll rest none env k h
      | .jump wanted _ => Stat.execAll rest (some wanted) env k h) h

end

namespace Loop

def next (env : Env) (rest : Loop) (flow : Flow) (k : Flow → Heap → Step) (h : Heap) : Step :=
  -- with the loop, or behind it after a `break`
  match flow with
  | .next _ => .again rest h k
  | .jump label pending => k (if label = loopEnd then .next env else .jump label pending) h

def turnBody (body : Block) (inner env : Env) (rest : Loop) (k : Flow → Heap → Step) (h : Heap) : Step :=
  Stat.execAll body none inner (fun flow => flow.out env fun flow => next env rest flow k) h

def turn (l : Loop) (k : Flow → Heap → Step) (h : Heap) : Step :=
  match l with
  | .whileTrue condition body env =>
    condition.value env (fun v h =>
      if v.isTruthy then turnBody body env env l k h else k (.next env) h) h
  | .untilTrue body condition env =>
    Stat.execAll body none env (fun flow h =>
      match flow with
      | .next inner =>
        condition.value inner (fun v =>
          flow.out env fun flow h => if v.isTruthy then k flow h else next env l flow k h) h
      | .jump _ _ => flow.out env (fun flow => next env l flow k) h) h
  | .countInt name i left step body env =>
    match left with
    | 0 => k (.next env) h
    | left + 1 =>
      let (inner, h) := env.bind [name] [.int i] h
      turnBody body inner env (.countInt name (i + step) left step body env) k h
  | .countFloat name x limit step body env =>
    if (if Binary64.blt .zero step then x.ble limit else limit.ble x) then
      let (inner, h) := env.bind [name] [.float x] h
      turnBody body inner env (.countFloat name (x.add step) limit step body env) k h
    else k (.next env) h
  | .iterate names f state control body env line =>
    .call f [state, control] ⟨env.place line, some ⟨"for iterator", "for iterator".toUTF8⟩⟩ h
      fun vs h =>
        match vs.headD .nil with
        | .nil => k (.next env) h
        | v =>
          let (inner, h) := env.bind names vs h
          turnBody body inner env (.iterate names f state v body env line) k h
  | .labelled name rest sought env =>
    Stat.execAll rest sought env (fun flow h =>
      match flow with
      | .jump label pending =>
        if label = name then leave (pending - env.pending) (.again (.labelled name rest none env) · k) h
        else k flow h
      | .next _ => k flow h) h

end Loop

def Function.enter (f : Function) (env : Env) (args : List Datum) (h : Heap) : Step :=
  match f with
  | .mk params isVararg body =>
    let inner : Env := { env with
      level := env.level + 1
      extra := if isVararg then args.drop params.length else [] }
    let (inner, h) := inner.bind params args h
    Stat.execAll body none inner (fun _ h => .finish [] h) h

end ScriptHost.Lua
