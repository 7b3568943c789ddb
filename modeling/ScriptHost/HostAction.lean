import ScriptHost.Value
import ScriptHost.ScriptError

/-!
# What host functions do

A function of the embedding program answers its arguments with a `HostAction`: it is done, it fails, it
panics, or it asks something of the bridge that it runs in and goes on with the answer.
-/

set_option autoImplicit false

namespace ScriptHost

inductive Request where
  | execute (source : String)
  | callGlobal (name : String) (args : List Value)
  | invoke (handle : Handle) (args : List Value)
  | getGlobal (name : String)
  | setGlobal (name : String) (v : Value)
  | pinned
  | release
  | close
  | reset
  | isLive (handle : Handle)
deriving Inhabited

inductive HostAction where
  | done (v : Value)
  | fail (e : ScriptError)
  | panic (message : Option String)
  | ask (r : Request) (next : Except ScriptError Value → HostAction)

namespace HostAction

def answer (r : Request) : HostAction :=
  .ask r fun result =>
    match result with
    | .ok v => .done v
    | .error e => .fail e

def ofExcept : Except ScriptError Value → HostAction
  | .ok v => .done v
  | .error e => .fail e

def panicked (message : Option String) : ScriptError :=
  .runtime ("host function panicked: " ++ message.getD "unknown panic")

end HostAction

abbrev Host := String → List Value → HostAction

def Host.none : Host := fun _ _ => .done .nil

end ScriptHost
