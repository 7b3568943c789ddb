import ScriptHost.Bridge.Call

/-!
# Running script nodes

The body of a script node is compiled once, as a chunk whose extra arguments are the parameters of a
body, and then called with the inputs of an invocation.  What it emits has to be declared; of what it
returns only declared data outputs are kept.
-/

set_option autoImplicit false

namespace ScriptHost

structure Services where
  scene : Dict HostFn
  events : Dict HostFn
  timers : Dict HostFn
deriving Inhabited

namespace Services

def none : Services := ⟨[], [], []⟩

def value (functions : Dict HostFn) : Value := .map (Dict.mapValues .function functions)

end Services

structure Outcome where
  outputs : Dict Value
  emissions : List Emission
deriving Inhabited

structure NodeRunner where
  node : String
  data : ScriptNode
  body : Handle
deriving Inhabited

namespace NodeRunner

def source (data : ScriptNode) : String :=
  -- the parameters are declared on the first line
  "local " ++ ", ".intercalate scriptParameters ++ " = ...; " ++ data.code

def chunk (node : String) : String := "node:" ++ node

def compile (b : Bridge) (node : String) (data : ScriptNode) :
    Except ScriptError NodeRunner × Bridge :=
  match data.check with
  | .error fault => (.error (.graph fault), b)
  | .ok () =>
    match b.compile (source data) (chunk node) with
    | (.error e, b) => (.error e, b)
    | (.ok body, b) => (.ok ⟨node, data, body⟩, b)

def context (inv : Invocation) : Value :=
  .map [("nodeId", .string inv.node), ("runId", .int inv.run.toInt64)]

def entity (inv : Invocation) : Value :=
  match inv.entity with
  | some id => .string id
  | none => .nil

def arguments (data : ScriptNode) (inv : Invocation) (services : Services) (sink : Nat) :
    List Value :=
  [.map (Dict.mapValues Value.ofJson inv.inputs), context inv, entity inv,
    .function (.standard (.emitter data sink)), Services.value services.scene,
    Services.value services.events, Services.value services.timers]

def isOutput (data : ScriptNode) (port : String) : Bool :=
  data.mergedOutputs.any fun p => p.id == port && p.type != .flow

def outputs (runner : NodeRunner) (v : Value) : Except ScriptError (Dict Value) :=
  match v with
  | .nil => .ok []
  | .map members => .ok (members.filter fun m => isOutput runner.data m.1)
  | .array [] => .ok []
  | other =>
    .error (.runtime ("script node '" ++ runner.node ++ "' must return a table of outputs, got "
      ++ other.typeName))

def collect (runner : NodeRunner) (b : Bridge) (v : Value) : Except ScriptError (Dict Value) × Bridge :=
  -- the functions in all other values are unpinned
  let kept := runner.outputs v
  let slots := match kept with
    | .ok outputs => Value.memberHandles outputs
    | .error _ => []
  (kept, b.dropAll (v.handles.filter fun handle => !slots.contains handle))

def invoke (host : Host) (fuel : Nat) (runner : NodeRunner) (b : Bridge)
    (elsewhere : Handle → Bool) (inv : Invocation) (services : Services) : Bridge.Answer Outcome :=
  match inv.check runner.data with
  | .error fault => b.answer (.error (.graph fault))
  | .ok () =>
    let b := b.openSink
    let args := arguments runner.data inv services b.sink
    match b.invoke host fuel elsewhere runner.body args with
    | none => none
    | some (.error e, b) => b.closeSink.2.answer (.error e)
    | some (.ok v, b) =>
      let (emissions, b) := b.closeSink
      let (outputs, b) := runner.collect b v
      b.answer (outputs.map fun outputs => ⟨outputs, emissions⟩)

end NodeRunner

end ScriptHost
