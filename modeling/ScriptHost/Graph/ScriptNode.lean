import ScriptHost.Graph.Basic

/-!
# Script nodes

A script node's data holds its body, the ports it adds to those of its type, and the signals it
listens for and may emit.  The body is called with the seven parameters of `scriptParameters`; an
`Invocation` is one such call, and `Invocation.check` compares its inputs with the declared ones.
-/

set_option autoImplicit false

namespace ScriptHost

structure ScriptNode where
  code : String
  customInputs : List Port
  customOutputs : List Port
  listenSignals : List String
  emitSignals : List String
deriving DecidableEq, Inhabited, Repr

namespace ScriptNode

def defaultCode : String :=
  "-- inputs: resolved input values\n-- emit(signal, data): broadcast a declared signal\nreturn \x7b\x7d\n"

def ofCode (code : String) : ScriptNode := ⟨code, [], [], [], []⟩

def fresh : ScriptNode := ofCode defaultCode

def withInput (d : ScriptNode) (p : Port) : ScriptNode :=
  { d with customInputs := d.customInputs ++ [p] }

def withOutput (d : ScriptNode) (p : Port) : ScriptNode :=
  { d with customOutputs := d.customOutputs ++ [p] }

def listens (d : ScriptNode) (signal : String) : ScriptNode :=
  { d with listenSignals := d.listenSignals ++ [signal] }

def emits (d : ScriptNode) (signal : String) : ScriptNode :=
  { d with emitSignals := d.emitSignals ++ [signal] }

def listensTo (d : ScriptNode) (signal : String) : Bool := d.listenSignals.contains signal

def declaresEmit (d : ScriptNode) (signal : String) : Bool := d.emitSignals.contains signal

def checkEmit (d : ScriptNode) (signal : String) : Except GraphFault Unit :=
  if d.declaresEmit signal then .ok () else .error (.undeclaredSignal signal)

def baseInputs : List Port := [.flow "in" "In"]

def baseOutputs : List Port := [.flow "out" "Out"]

def inputsOver (d : ScriptNode) (schema : List Port) : List Port := Port.merge schema d.customInputs

def outputsOver (d : ScriptNode) (schema : List Port) : List Port :=
  Port.merge schema d.customOutputs

def mergedInputs (d : ScriptNode) : List Port := d.inputsOver baseInputs

def mergedOutputs (d : ScriptNode) : List Port := d.outputsOver baseOutputs

def check (d : ScriptNode) : Except GraphFault Unit :=
  Port.checkDistinct "script node" (baseInputs ++ baseOutputs ++ d.customInputs ++ d.customOutputs)

def fields : Fields ScriptNode :=
  (Fields.optional "code" .string "").map ScriptNode.mk
    |>.seq (.optional "customInputs" (.list Port.decode) [])
    |>.seq (.optional "customOutputs" (.list Port.decode) [])
    |>.seq (.optional "listenSignals" (.list .string) [])
    |>.seq (.optional "emitSignals" (.list .string) [])

def decode : Decoder ScriptNode := fields.decode "ScriptNodeData"

def toJson (d : ScriptNode) : Json :=
  .obj [("code", .str d.code), ("customInputs", Port.listJson d.customInputs),
    ("customOutputs", Port.listJson d.customOutputs),
    ("listenSignals", .arr (d.listenSignals.map .str)),
    ("emitSignals", .arr (d.emitSignals.map .str))]

def ofNode (n : Node) : Except GraphFault (Option ScriptNode) :=
  if n.data.isNull then .ok none
  else match decode n.data with
    | .ok d => .ok (some d)
    | .error e => .error (.invalidNodeData n.id e.message)

end ScriptNode

inductive Service where
  | scene
  | events
  | timers
deriving DecidableEq, Repr

namespace Service

def all : List Service := [.scene, .events, .timers]

def name : Service → String
  | .scene => "scene"
  | .events => "events"
  | .timers => "timers"

end Service

def scriptParameters : List String :=
  ["inputs", "ctx", "entityId", "emit", "scene", "events", "timers"]

structure Emission where
  signal : String
  data : Option Json
deriving Inhabited, Repr

namespace Emission

def fields : Fields Emission :=
  (Fields.required "signal" .string).map Emission.mk
    |>.seq (.optional "data" (.optional .json) none)

def decode : Decoder Emission := fields.decode "SignalEmission"

def toJson (e : Emission) : Json := .record [("signal", some (.str e.signal)), ("data", e.data)]

end Emission

structure Invocation where
  node : String
  inputs : Dict Json
  run : UInt64
  entity : Option String
deriving Inhabited, Repr

namespace Invocation

def firstUndeclared? (inv : Invocation) (ports : List Port) : Option String :=
  (Dict.keys inv.inputs).find? fun key => !ports.any fun p => p.id == key && p.type.isData

def firstMissing? (inv : Invocation) (ports : List Port) : Option Port :=
  ports.find? fun p => p.isRequired && !Dict.contains inv.inputs p.id

def check (inv : Invocation) (d : ScriptNode) : Except GraphFault Unit :=
  -- inputs that are not declared are refused first, then required ports that are left out
  match inv.firstUndeclared? d.mergedInputs with
  | some key => .error (.unknownInput key)
  | none =>
    match inv.firstMissing? d.mergedInputs with
    | some p => .error (.missingInput p.id)
    | none => .ok ()

end Invocation

end ScriptHost
