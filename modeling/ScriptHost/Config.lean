import ScriptHost.Kdl.Reader
import ScriptHost.ScriptError

/-!
# Configuration

A configuration is read from a document of two levels: a section is a top-level node, a setting a node
inside it, and its value the setting's first argument.  The last occurrence of a setting wins; what is
not known is passed over.
-/

set_option autoImplicit false

namespace ScriptHost

structure Config where
  sandbox : Bool
  memoryLimit : Option Nat
  chunkName : String
  logCapacity : Nat
  debounceMs : Nat
  logFilter : String
deriving DecidableEq, Inhabited, Repr

namespace Config

def standard : Config where
  sandbox := true
  memoryLimit := none
  chunkName := "script"
  logCapacity := 256
  debounceMs := 300
  logFilter := "info"

inductive Setting where
  | sandbox
  | memoryLimit
  | chunkName
  | logCapacity
  | debounceMs
  | logFilter
deriving DecidableEq, Repr

namespace Setting

def all : List Setting :=
  [.sandbox, .memoryLimit, .chunkName, .logCapacity, .debounceMs, .logFilter]

def key : Setting → String
  | .sandbox => "scripting.sandbox"
  | .memoryLimit => "scripting.memory-limit"
  | .chunkName => "scripting.chunk-name"
  | .logCapacity => "scripting.log-capacity"
  | .debounceMs => "ui.debounce-ms"
  | .logFilter => "log.filter"

def ofKey? (key : String) : Option Setting := all.find? (·.key == key)

end Setting

def wrong (key expected : String) : ScriptError := .invalidConfig (key ++ ": expected " ++ expected)

def boolArgument (key : String) (n : Kdl.Node) : Except ScriptError Bool :=
  match n.argument? with
  | some (.bool b) => .ok b
  | _ => .error (wrong key "boolean")

def naturalArgument (key : String) (n : Kdl.Node) : Except ScriptError Nat :=
  match n.argument? with
  | some (.integer i) =>
    if 0 ≤ i ∧ i.toNat < UInt64.size then .ok i.toNat else .error (wrong key "non-negative integer")
  | _ => .error (wrong key "integer")

def stringArgument (key : String) (n : Kdl.Node) : Except ScriptError String :=
  match n.argument? with
  | some (.string s) => .ok s
  | _ => .error (wrong key "string")

def set (c : Config) (s : Setting) (n : Kdl.Node) : Except ScriptError Config :=
  -- a memory limit of zero is no limit
  match s with
  | .sandbox => (boolArgument s.key n).map fun b => { c with sandbox := b }
  | .memoryLimit =>
    (naturalArgument s.key n).map fun k => { c with memoryLimit := if k = 0 then none else some k }
  | .chunkName => (stringArgument s.key n).map fun t => { c with chunkName := t }
  | .logCapacity => (naturalArgument s.key n).map fun k => { c with logCapacity := k }
  | .debounceMs => (naturalArgument s.key n).map fun k => { c with debounceMs := k }
  | .logFilter => (stringArgument s.key n).map fun t => { c with logFilter := t }

def apply (c : Config) (key : String) (n : Kdl.Node) : Except ScriptError Config :=
  match Setting.ofKey? key with
  | some s => c.set s n
  | none => .ok c

def settingNodes (doc : Kdl.Document) : List (String × Kdl.Node) :=
  doc.flatMap fun sec => (sec.children?.getD []).map fun n => (sec.name ++ "." ++ n.name, n)

def applyAll : List (String × Kdl.Node) → Config → Except ScriptError Config
  | [], c => .ok c
  | (key, n) :: rest, c =>
    match c.apply key n with
    | .error e => .error e
    | .ok c => applyAll rest c

def ofDocument (doc : Kdl.Document) : Except ScriptError Config :=
  applyAll (settingNodes doc) standard

def ofText (text : String) : Except ScriptError Config :=
  match Kdl.Document.ofText? text with
  | none => .error .malformedConfig
  | some doc => ofDocument doc

end Config

end ScriptHost
