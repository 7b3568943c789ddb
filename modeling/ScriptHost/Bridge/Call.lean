import ScriptHost.Bridge.Run

/-!
# Calls from the host

What the host starts in a bridge: sources, functions behind handles, and functions in a global table.
-/

set_option autoImplicit false

namespace ScriptHost

namespace Bridge

def execute (host : Host) (fuel : Nat) (b : Bridge) (source : String) : Answer Value :=
  b.executeNamed host fuel source b.config.chunkName

def invoke (host : Host) (fuel : Nat) (b : Bridge) (elsewhere : Handle → Bool) (handle : Handle)
    (args : List Value) : Answer Value :=
  -- `elsewhere` says whether another bridge has the session of the handle open; a handle of no open
  -- session is refused as closed
  if b.isLive handle || elsewhere handle then b.invokeLive host fuel handle args
  else b.answer (.error .closed)

def callMethod (host : Host) (fuel : Nat) (b : Bridge) (elsewhere : Handle → Bool)
    (table method : String) (args : List Value) : Answer Value :=
  -- the other functions in the table are unpinned before the call and this one after it
  (getGlobal host fuel b table).next fun b v =>
    match ((v.get? method).getD .nil).asCallable with
    | .error e => (b.dropAll v.handles).answer (.error e)
    | .ok handle =>
      let b := b.dropAll (v.handles.filter fun other => other != handle)
      (b.invoke host fuel elsewhere handle args).map fun r => (r.1, r.2.drop handle)

end Bridge

end ScriptHost
