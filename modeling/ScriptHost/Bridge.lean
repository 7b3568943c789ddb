import ScriptHost.Session
import ScriptHost.ScriptLog
import ScriptHost.Lua.Load

/-!
# Bridges

A `Bridge` is the host's hold on one interpreter: at most one open session, the script log, which
outlives sessions, and the mark that a guarded call is under way.  Closing and opening again make a new
session with a new name.  A session that is closed while a run of it is under way lingers until the run
ends.
-/

set_option autoImplicit false

namespace ScriptHost

structure Bridge where
  id : Nat
  config : Config
  log : ScriptLog
  busy : Bool
  openings : Nat
  session : Option Session
  lingering : List Session
  sink : Nat
  -- what was emitted into the current sink, the last signal first
  emitted : List Emission
deriving Inhabited

namespace Bridge

def start (id : Nat) (config : Config) : Bridge :=
  ⟨id, config, .ofCapacity config.logCapacity, false, 1, some (.start ⟨id, 0⟩ config), [], 0, []⟩

def isClosed (b : Bridge) : Bool := b.session.isNone

def find? (b : Bridge) (id : SessionId) : Option Session :=
  (b.session.toList ++ b.lingering).find? (·.id = id)

def isLive (b : Bridge) (handle : Handle) : Bool := (b.find? handle.session).isSome

def update (b : Bridge) (id : SessionId) (f : Session → Session) : Bridge :=
  let change (s : Session) : Session := if s.id = id then f s else s
  { b with session := b.session.map change, lingering := b.lingering.map change }

def reentrant : ScriptError :=
  .runtime "re-entrant call into the same interpreter state is not allowed"

def closeWhileRunning : ScriptError :=
  .runtime "cannot close the interpreter while a script is running"

def close (b : Bridge) : Except ScriptError Unit × Bridge :=
  if b.busy then (.error closeWhileRunning, b)
  else match b.session with
    | none => (.ok (), b)
    | some s =>
      let left := if s.runs = 0 then b.lingering else s.release.2 :: b.lingering
      (.ok (), { b with session := none, lingering := left })

def reopen (b : Bridge) : Bridge :=
  { b with
    session := some (.start ⟨b.id, b.openings⟩ b.config)
    openings := b.openings + 1 }

def reset (b : Bridge) : Except ScriptError Unit × Bridge :=
  match b.close with
  | (.error e, b) => (.error e, b)
  | (.ok (), b) => (.ok (), b.reopen)

def release (b : Bridge) : Nat × Bridge :=
  match b.session with
  | none => (0, b)
  | some s =>
    let (n, s) := s.release
    (n, { b with session := some s })

def pinned (b : Bridge) : Nat :=
  match b.session with
  | none => 0
  | some s => s.pins.length

def stateSnapshot (b : Bridge) : Except ScriptError (Dict Value) :=
  match b.session with
  | none => .error .closed
  | some s => .ok s.state

def retain (b : Bridge) (handle : Handle) : Bridge := b.update handle.session (·.retain handle)

def drop (b : Bridge) (handle : Handle) : Bridge := b.update handle.session (·.drop handle)

def dropAll (b : Bridge) (handles : List Handle) : Bridge := handles.foldl drop b

def compile (b : Bridge) (source chunk : String) : Except ScriptError Handle × Bridge :=
  match b.session with
  | none => (.error .closed, b)
  | some s =>
    match s.heap.load source.toUTF8 chunk with
    | .error e => (.error e, b)
    | .ok (f, heap) =>
      let (handle, s) := ({ s with heap } : Session).pin f
      (.ok handle, { b with session := some s })

def openSink (b : Bridge) : Bridge := { b with sink := b.sink + 1, emitted := [] }

def closeSink (b : Bridge) : List Emission × Bridge :=
  -- later emissions into this sink are lost
  (b.emitted.reverse, { b with sink := b.sink + 1, emitted := [] })

end Bridge

end ScriptHost
