import Mathlib.Data.List.Forall2
import ScriptHost.Bridge.Call

/-!
# An account of a run

`Account` lists, for each way to run a script in a bridge, the calls of host functions that scripts make
on the way, in the order in which they are made; those that a host function brings about itself follow it.
What a run leaves in the current sink of emissions is read off the account: it is what the successful
calls of the emitter of that sink say.
-/

set_option autoImplicit false

namespace ScriptHost
open Lua

/-- A call of a host function by a script: the data it was given, the host values they were received as,
and what the script got back. -/
structure HostCall where
  function : HostFn
  given : List Datum
  received : Except ScriptError (List Value)
  answer : Except ScriptError Datum

namespace HostCall

def payload (rest : List Value) : Option Json :=
  -- nil carries nothing
  match rest.head? with
  | some v => if v.isNil then none else some v.toJson
  | none => none

/-- What is said of a call is so: nil was received for nil and for nothing else, and an emitter lets a
call succeed only for a signal that its node declares. -/
structure Faithful (c : HostCall) : Prop where
  nils : ∀ vs, c.received = .ok vs → List.Forall₂ (fun d v => Value.isNil v = d.isNil) c.given vs
  declared : ∀ node sink d, c.function = .standard (.emitter node sink) → c.answer = .ok d →
    ∃ signal rest, c.received = .ok (.string signal :: rest) ∧ signal ∈ node.emitSignals

def emission? (sink : Nat) (c : HostCall) : Option Emission :=
  -- only a successful call of an emitter of that sink adds a signal
  match c.function, c.received, c.answer with
  | .standard (.emitter _ target), .ok (.string signal :: rest), .ok _ =>
    if target = sink then some ⟨signal, payload rest⟩ else none
  | _, _, _ => none

end HostCall

namespace Bridge

inductive Query where
  | execute (source chunk : String)
  | callGlobal (name : String) (args : List Value)
  | invoke (handle : Handle) (args : List Value)
  | getGlobal (name : String)

namespace Query

def run (host : Host) (fuel : Nat) (elsewhere : Handle → Bool) (b : Bridge) : Query → Answer Value
  | .execute source chunk => b.executeNamed host fuel source chunk
  | .callGlobal name args => b.callGlobal host fuel name args
  | .invoke handle args => b.invoke host fuel elsewhere handle args
  | .getGlobal name => b.getGlobal host fuel name

def guarded : Query → Bool
  | .getGlobal _ => false
  | _ => true

def values : Query → List Value
  | .callGlobal _ args => args
  | .invoke _ args => args
  | _ => []

end Query

end Bridge

namespace Account

mutual

def drive (host : Host) : Nat → Bridge → SessionId → Machine → List HostCall
  | 0, _, _, _ => []
  | fuel + 1, b, id, m =>
    match m.advance with
    | .running m => drive host fuel b id m
    | .finished _ _ => []
    | .failed _ _ => []
    | .host f args h stack =>
      callHost host fuel (b.putHeap id h) id f args ++
        match Bridge.callHost host fuel (b.putHeap id h) id f args with
        | none => []
        | some (r, b) =>
          let (h, b) := b.takeHeap id
          match r with
          | .ok d => drive host fuel b id (.resume [d] h stack)
          | .error e => drive host fuel b id (.interrupt e h stack)

def callHost (host : Host) : Nat → Bridge → SessionId → HostFn → List Datum → List HostCall
  | 0, _, _, _, _ => []
  | fuel + 1, b, id, f, args =>
    let (received, b') := b.outwardAll id args
    let own := match Bridge.callHost host (fuel + 1) b id f args with
      | none => []
      | some (r, _) => [⟨f, args, received, r⟩]
    match received with
    | .error _ => own
    | .ok vs => own ++ serve host fuel b' f vs

def serve (host : Host) : Nat → Bridge → HostFn → List Value → List HostCall
  | 0, _, _, _ => []
  | fuel + 1, b, f, args =>
    match f with
    | .standard _ => []
    | .custom name _ => follow host fuel b (host name args)

def follow (host : Host) : Nat → Bridge → HostAction → List HostCall
  | 0, _, _ => []
  | fuel + 1, b, action =>
    match action with
    | .done _ => []
    | .fail _ => []
    | .panic _ => []
    | .ask r next =>
      reply host fuel b r ++
        match Bridge.reply host fuel b r with
        | none => []
        | some (r, b) => follow host fuel b (next r)

def reply (host : Host) : Nat → Bridge → Request → List HostCall
  | 0, _, _ => []
  | fuel + 1, b, r =>
    match r with
    | .execute source => executeNamed host fuel b source b.config.chunkName
    | .callGlobal name args => callGlobal host fuel b name args
    | .invoke handle args => if b.isLive handle then invokeLive host fuel b handle args else []
    | .getGlobal name => getGlobal host fuel b name
    | .setGlobal name v => setGlobal host fuel b name v
    | _ => []

def explain (host : Host) : Nat → Nat → Bridge → SessionId → Thrown → Heap → List HostCall
  | 0, _, _, _, _, _ => []
  | fuel + 1, depth, b, id, e, h =>
    match Bridge.plainError? e, depth with
    | some _, _ => []
    | none, 0 => []
    | none, depth + 1 =>
      drive host fuel b id (.describing e.datum h) ++
        match Bridge.drive host fuel b id (.describing e.datum h) with
        | some (.error e, h, b) => explain host fuel depth b id e h
        | _ => []

def run (host : Host) : Nat → Bridge → SessionId → (Heap → Machine) → List HostCall
  | 0, _, _, _ => []
  | fuel + 1, b, id, machine =>
    let (h, b) := (b.enterRun id).takeHeap id
    drive host fuel b id (machine h) ++
      match Bridge.drive host fuel b id (machine h) with
      | some (.error e, h, b) => explain host fuel Bridge.describeLimit b id e h
      | _ => []

def runOutward (host : Host) : Nat → Bridge → SessionId → (Heap → Machine) → List HostCall
  | 0, _, _, _ => []
  | fuel + 1, b, id, machine => run host fuel b id machine

def executeNamed (host : Host) : Nat → Bridge → String → String → List HostCall
  | 0, _, _, _ => []
  | fuel + 1, b, source, chunk =>
    match b.enter, b.session with
    | .ok b, some s =>
      match s.heap.load source.toUTF8 chunk with
      | .error _ => []
      | .ok (f, h) => runOutward host fuel (b.putHeap s.id h) s.id (.start f [])
    | _, _ => []

def callWith (host : Host) : Nat → Bridge → SessionId → Datum → List Value → List HostCall
  | 0, _, _, _, _ => []
  | fuel + 1, b, id, f, args =>
    match b.inwardAll id args with
    | (.error _, _) => []
    | (.ok ds, b) => runOutward host fuel b id (.start f ds)

def callGlobal (host : Host) : Nat → Bridge → String → List Value → List HostCall
  | 0, _, _, _ => []
  | fuel + 1, b, name, args =>
    match b.enter, b.session with
    | .ok b, some s =>
      run host fuel b s.id (.reading name) ++
        match Bridge.run host fuel b s.id (.reading name) with
        | some (.ok (.function a), b) => callWith host fuel b s.id (.function a) args
        | _ => []
    | _, _ => []

def invokeLive (host : Host) : Nat → Bridge → Handle → List Value → List HostCall
  | 0, _, _, _ => []
  | fuel + 1, b, handle, args =>
    match b.enter, b.session with
    | .ok b, some s =>
      match Crossing.resolve s.id s.pins handle with
      | .error _ => []
      | .ok f => callWith host fuel b s.id f args
    | _, _ => []

def getGlobal (host : Host) : Nat → Bridge → String → List HostCall
  | 0, _, _ => []
  | fuel + 1, b, name =>
    match b.session with
    | none => []
    | some s => runOutward host fuel b s.id (.reading name)

def setGlobal (host : Host) : Nat → Bridge → String → Value → List HostCall
  | 0, _, _, _ => []
  | fuel + 1, b, name, v =>
    match b.session with
    | none => []
    | some s =>
      match b.inward s.id v with
      | (.error _, _) => []
      | (.ok d, b) => run host fuel b s.id (.writing name d)

end

def invoke (host : Host) (fuel : Nat) (b : Bridge) (elsewhere : Handle → Bool) (handle : Handle)
    (args : List Value) : List HostCall :=
  if b.isLive handle || elsewhere handle then invokeLive host fuel b handle args else []

def query (host : Host) (fuel : Nat) (elsewhere : Handle → Bool) (b : Bridge) : Bridge.Query → List HostCall
  | .execute source chunk => executeNamed host fuel b source chunk
  | .callGlobal name args => callGlobal host fuel b name args
  | .invoke handle args => invoke host fuel b elsewhere handle args
  | .getGlobal name => getGlobal host fuel b name

end Account

end ScriptHost
