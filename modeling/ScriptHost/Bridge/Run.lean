import ScriptHost.Bridge.Standard
import ScriptHost.HostAction
import ScriptHost.Lua.Machine

/-!
# Running scripts in a bridge

`Bridge.execute`, `callGlobal` and `invoke` are guarded: while one of them is under way every other one
is refused.  Reading and setting global variables is not guarded, but goes through metamethods and so may
run scripts too.  All of them drive the machine, serve the host functions that it calls, and let those ask
the same things of the bridge again.  The first argument bounds how many steps are done; without a result
there were too few.
-/

set_option autoImplicit false

namespace ScriptHost

open Lua (Datum Heap Machine Thrown)

namespace Bridge

abbrev Answer (α : Type) := Option (Except ScriptError α × Bridge)

def answer {α : Type} (b : Bridge) (r : Except ScriptError α) : Answer α := some (r, b)

def Answer.next {α β : Type} (a : Answer α) (f : Bridge → α → Answer β) : Answer β :=
  match a with
  | none => none
  | some (.error e, b) => some (.error e, b)
  | some (.ok v, b) => f b v

def takeHeap (b : Bridge) (id : SessionId) : Heap × Bridge :=
  match b.find? id with
  | some s => (s.heap, b.update id fun s => { s with heap := default })
  | none => (default, b)

def putHeap (b : Bridge) (id : SessionId) (h : Heap) : Bridge :=
  b.update id fun s => { s with heap := h }

def enterRun (b : Bridge) (id : SessionId) : Bridge :=
  b.update id fun s => { s with runs := s.runs + 1 }

def leaveRun (b : Bridge) (id : SessionId) : Bridge :=
  -- a closed session goes with its last run
  let b := b.update id fun s => { s with runs := s.runs - 1 }
  { b with lingering := b.lingering.filter fun s => s.runs ≠ 0 }

def enter (b : Bridge) : Except ScriptError Bridge :=
  if b.busy then .error reentrant else .ok { b with busy := true }

def leave (b : Bridge) : Bridge := { b with busy := false }

def guarded {α : Type} (b : Bridge) (f : Bridge → Answer α) : Answer α :=
  match b.enter with
  | .error e => some (.error e, b)
  | .ok b => (f b).map fun r => (r.1, r.2.leave)

def withSession {α : Type} (b : Bridge) (f : Session → Answer α) : Answer α :=
  match b.session with
  | none => some (.error .closed, b)
  | some s => f s

def outwardAll (b : Bridge) (id : SessionId) : List Datum → Except ScriptError (List Value) × Bridge
  | [] => (.ok [], b)
  | d :: rest =>
    match b.find? id with
    | none => (.error .closed, b)
    | some s =>
      match s.outward d with
      | (.error e, s) => (.error e, b.update id fun _ => s)
      | (.ok v, s) =>
        match outwardAll (b.update id fun _ => s) id rest with
        | (.error e, b) => (.error e, b)
        | (.ok vs, b) => (.ok (v :: vs), b)

def outward (b : Bridge) (id : SessionId) (d : Datum) : Except ScriptError Value × Bridge :=
  match b.find? id with
  | none => (.error .closed, b)
  | some s =>
    let (r, s) := s.outward d
    (r, b.update id fun _ => s)

def inward (b : Bridge) (id : SessionId) (v : Value) : Except ScriptError Datum × Bridge :=
  match b.find? id with
  | none => (.error .closed, b)
  | some s =>
    match s.inward v with
    | .error e => (.error e, b)
    | .ok (d, s) => (.ok d, b.update id fun _ => s)

def inwardAll (b : Bridge) (id : SessionId) (vs : List Value) :
    Except ScriptError (List Datum) × Bridge :=
  match b.find? id with
  | none => (.error .closed, b)
  | some s =>
    match s.inwardAll vs with
    | .error e => (.error e, b)
    | .ok (ds, s) => (.ok ds, b.update id fun _ => s)

def nextSlot (b : Bridge) (id : SessionId) : Nat :=
  match b.find? id with
  | some s => s.nextSlot
  | none => 0

def unpinSince (b before : Bridge) : Bridge :=
  -- a session that was opened since loses all its pins
  let forget (s : Session) : Session := s.dropFrom (before.nextSlot s.id)
  { b with session := b.session.map forget, lingering := b.lingering.map forget }

def unitValue : Except ScriptError Unit → Except ScriptError Value
  | .ok () => .ok .nil
  | .error e => .error e

def thrownText (s : ByteArray) : ScriptError := .runtime (Utf8.lossy (beforeZero s))

def plainError? : Thrown → Option ScriptError
  -- the error that the host gets for something thrown that needs no text made by the script
  | .memory => some .outOfMemory
  | .value (.failure _ f) => some f.classify
  | .value (.string s) => some (thrownText s)
  | .value _ => none

def describeLimit : Nat :=
  -- how many errors may be thrown in a row, each while the one before is described
  60

def neverDescribed : ScriptError := .runtime "C stack overflow"

def firstValue (ds : List Datum) : Datum := ds.headD .nil

mutual

def drive (host : Host) : Nat → Bridge → SessionId → Machine →
    Option (Except Thrown (List Datum) × Heap × Bridge)
  | 0, _, _, _ => none
  | fuel + 1, b, id, m =>
    match m.advance with
    | .running m => drive host fuel b id m
    | .finished values h => some (.ok values, h, b)
    | .failed e h => some (.error e, h, b)
    | .host f args h stack =>
      match callHost host fuel (b.putHeap id h) id f args with
      | none => none
      | some (r, b) =>
        let (h, b) := b.takeHeap id
        match r with
        | .ok d => drive host fuel b id (.resume [d] h stack)
        | .error e => drive host fuel b id (.interrupt e h stack)

def callHost (host : Host) : Nat → Bridge → SessionId → HostFn → List Datum → Answer Datum
  -- whatever is pinned for the call on the way is unpinned when it returns
  | 0, _, _, _, _ => none
  | fuel + 1, b, id, f, args =>
    let unpin (r : Except ScriptError Datum × Bridge) : Except ScriptError Datum × Bridge :=
      (r.1, r.2.unpinSince b)
    match b.outwardAll id args with
    | (.error e, b) => some (unpin (.error e, b))
    | (.ok vs, b) =>
      match serve host fuel b id f vs with
      | none => none
      | some (.error e, b) => some (unpin (.error e, b))
      | some (.ok v, b) => some (unpin (b.inward id v))

def serve (host : Host) : Nat → Bridge → SessionId → HostFn → List Value → Answer Value
  | 0, _, _, _, _ => none
  | fuel + 1, b, id, f, args =>
    match f with
    | .standard f => some (b.standard id f args)
    | .custom name _ => follow host fuel b (host name args)

def follow (host : Host) : Nat → Bridge → HostAction → Answer Value
  | 0, _, _ => none
  | fuel + 1, b, action =>
    match action with
    | .done v => b.answer (.ok v)
    | .fail e => b.answer (.error e)
    | .panic message => b.answer (.error (HostAction.panicked message))
    | .ask r next =>
      match reply host fuel b r with
      | none => none
      | some (r, b) => follow host fuel b (next r)

def reply (host : Host) : Nat → Bridge → Request → Answer Value
  | 0, _, _ => none
  | fuel + 1, b, r =>
    match r with
    | .execute source => executeNamed host fuel b source b.config.chunkName
    | .callGlobal name args => callGlobal host fuel b name args
    | .invoke handle args =>
      if b.isLive handle then invokeLive host fuel b handle args else b.answer (.error .closed)
    | .getGlobal name => getGlobal host fuel b name
    | .setGlobal name v => (setGlobal host fuel b name v).map fun r => (unitValue r.1, r.2)
    | .pinned => b.answer (.ok (.ofInt b.pinned))
    | .release =>
      let (n, b) := b.release
      b.answer (.ok (.ofInt n))
    | .close =>
      let (r, b) := b.close
      b.answer (unitValue r)
    | .reset =>
      let (r, b) := b.reset
      b.answer (unitValue r)
    | .isLive handle => b.answer (.ok (.bool (b.isLive handle)))

def explain (host : Host) : Nat → Nat → Bridge → SessionId → Thrown → Heap → Answer Datum
  -- what is no text is described by the script, and what is thrown in doing so takes its place
  | 0, _, _, _, _, _ => none
  | fuel + 1, depth, b, id, e, h =>
    match plainError? e, depth with
    | some error, _ => (b.putHeap id h).answer (.error error)
    | none, 0 => (b.putHeap id h).answer (.error neverDescribed)
    | none, depth + 1 =>
      match drive host fuel b id (.describing e.datum h) with
      | none => none
      | some (.ok values, h, b) =>
        (b.putHeap id h).answer (.error (thrownText (Lua.plainText (firstValue values))))
      | some (.error e, h, b) => explain host fuel depth b id e h

def run (host : Host) : Nat → Bridge → SessionId → (Heap → Machine) → Answer Datum
  | 0, _, _, _ => none
  | fuel + 1, b, id, machine =>
    let (h, b) := (b.enterRun id).takeHeap id
    match drive host fuel b id (machine h) with
    | none => none
    | some (.ok values, h, b) => (b.putHeap id h).answer (.ok (firstValue values))
    | some (.error e, h, b) => explain host fuel describeLimit b id e h

def runOutward (host : Host) : Nat → Bridge → SessionId → (Heap → Machine) → Answer Value
  | 0, _, _, _ => none
  | fuel + 1, b, id, machine =>
    match run host fuel b id machine with
    | none => none
    | some (.error e, b) => some (.error e, b.leaveRun id)
    | some (.ok d, b) =>
      let (r, b) := b.outward id d
      some (r, b.leaveRun id)

def executeNamed (host : Host) : Nat → Bridge → String → String → Answer Value
  | 0, _, _, _ => none
  | fuel + 1, b, source, chunk =>
    b.guarded fun b => b.withSession fun s =>
      match s.heap.load source.toUTF8 chunk with
      | .error e => b.answer (.error e)
      | .ok (f, h) =>
        runOutward host fuel (b.putHeap s.id h) s.id (.start f [])

def callWith (host : Host) : Nat → Bridge → SessionId → Datum → List Value → Answer Value
  | 0, _, _, _, _ => none
  | fuel + 1, b, id, f, args =>
    match b.inwardAll id args with
    | (.error e, b) => b.answer (.error e)
    | (.ok ds, b) => runOutward host fuel b id (.start f ds)

def callGlobal (host : Host) : Nat → Bridge → String → List Value → Answer Value
  | 0, _, _, _ => none
  | fuel + 1, b, name, args =>
    b.guarded fun b => b.withSession fun s =>
      match run host fuel b s.id (.reading name) with
      | none => none
      | some (.error e, b) => some (.error e, b.leaveRun s.id)
      | some (.ok f, b) =>
        match f with
        | .function _ =>
          (callWith host fuel b s.id f args).map fun r => (r.1, r.2.leaveRun s.id)
        | d =>
          (b.leaveRun s.id).answer (.error (.runtime ("global '" ++ name
            ++ "' is not a function (got " ++ d.hostTypeName ++ ")")))

def invokeLive (host : Host) : Nat → Bridge → Handle → List Value → Answer Value
  | 0, _, _, _ => none
  | fuel + 1, b, handle, args =>
    b.guarded fun b => b.withSession fun s =>
      match Crossing.resolve s.id s.pins handle with
      | .error e => b.answer (.error e)
      | .ok f => callWith host fuel b s.id f args

def getGlobal (host : Host) : Nat → Bridge → String → Answer Value
  | 0, _, _ => none
  | fuel + 1, b, name => b.withSession fun s => runOutward host fuel b s.id (.reading name)

def setGlobal (host : Host) : Nat → Bridge → String → Value → Answer Unit
  | 0, _, _, _ => none
  | fuel + 1, b, name, v =>
    b.withSession fun s =>
      match b.inward s.id v with
      | (.error e, b) => b.answer (.error e)
      | (.ok d, b) =>
        (run host fuel b s.id (.writing name d)).map fun r =>
          (r.1.map fun _ => (), r.2.leaveRun s.id)

end

end Bridge

end ScriptHost
