import ScriptHost.Ui.Run
import ScriptHost.NodeRunner

/-!
# Several bridges

A `Hub` holds bridges, each under its own number, and the host's handles to functions of any of them.  A
handle names its session, so it is kept, dropped and found dead or alive wherever it came from.
-/

set_option autoImplicit false

namespace ScriptHost

structure Hub where
  bridges : List Bridge
deriving Inhabited

namespace Hub

def empty : Hub := ⟨[]⟩

def openBridge (hub : Hub) (config : Config) : Nat × Hub :=
  let n := hub.bridges.length
  (n, ⟨hub.bridges ++ [.start n config]⟩)

def bridge? (hub : Hub) (n : Nat) : Option Bridge := hub.bridges[n]?

def setBridge (hub : Hub) (n : Nat) (b : Bridge) : Hub := ⟨hub.bridges.set n b⟩

def isLive (hub : Hub) (handle : Handle) : Bool := hub.bridges.any (·.isLive handle)

def retain (hub : Hub) (handle : Handle) : Hub := ⟨hub.bridges.map (·.retain handle)⟩

def drop (hub : Hub) (handle : Handle) : Hub := ⟨hub.bridges.map (·.drop handle)⟩

def run {α : Type} (hub : Hub) (n : Nat) (f : Bridge → Option (α × Bridge)) : Option (α × Hub) :=
  match hub.bridge? n with
  | none => none
  | some b => (f b).map fun r => (r.1, hub.setBridge n r.2)

def invoke (host : Host) (fuel : Nat) (hub : Hub) (n : Nat) (handle : Handle) (args : List Value) :
    Option (Except ScriptError Value × Hub) :=
  hub.run n fun b => b.invoke host fuel hub.isLive handle args

end Hub

end ScriptHost
