import ScriptHost.Bridge
import ScriptHost.Standard.State
import ScriptHost.Standard.Tables
import ScriptHost.Standard.Template
import ScriptHost.Ui.Factory
import ScriptHost.Value.Access

/-!
# The standard host functions

What `log`, the functions of `utils` and `state`, the component catalogue and factories, and the
emitter of a script node do to a bridge.  None of them runs a script.
-/

set_option autoImplicit false

namespace ScriptHost

namespace Bridge

def logLine (args : List Value) : String := " ".intercalate (args.map Value.display)

def componentInfo (args : List Value) : Except ScriptError Value :=
  match args with
  | [] => .ok .nil
  | v :: _ => v.asString.map fun tag =>
    match Component.find? tag with
    | some c => c.toValue
    | none => .nil

def emission (node : ScriptNode) (args : List Value) : Except ScriptError Emission :=
  match args with
  | .string signal :: rest =>
    match node.checkEmit signal with
    | .error fault => .error (.graph fault)
    | .ok () =>
      let payload := match rest.head? with
        | some v => if v.isNil then none else some v.toJson
        | none => none
      .ok ⟨signal, payload⟩
  | _ => .error (.runtime "emit: signal must be a string")

def emit (b : Bridge) (sink : Nat) (e : Emission) : Bridge :=
  -- a sink that is closed takes nothing
  if b.sink = sink then { b with emitted := e :: b.emitted } else b

def stateOf (b : Bridge) (id : SessionId) : Except ScriptError (Dict Value) :=
  match b.find? id with
  | some s => .ok s.state
  | none => .error .closed

def setState (b : Bridge) (id : SessionId) (d : Dict Value) : Bridge :=
  b.update id fun s => { s with state := d }

def standard (b : Bridge) (id : SessionId) (f : StandardFn) (args : List Value) :
    Except ScriptError Value × Bridge :=
  match f with
  | .log => (.ok .nil, { b with log := b.log.push (logLine args) })
  | .componentTags => (.ok (.strings Component.tags), b)
  | .componentInfo => (componentInfo args, b)
  | .deepCopy => (Tables.deepCopy (args.head?.getD .nil), b)
  | .merge => (Tables.merge args, b)
  | .format => (Template.format args, b)
  | .stateGet =>
    match b.stateOf id with
    | .error e => (.error e, b)
    | .ok d => (State.get d args, b)
  | .stateSet =>
    match b.stateOf id with
    | .error e => (.error e, b)
    | .ok d =>
      match State.set d args with
      | .error e => (.error e, b)
      | .ok d => (.ok .nil, b.setState id d)
  | .stateAll =>
    match b.stateOf id with
    | .error e => (.error e, b)
    | .ok d => (.ok (.map d), b)
  | .stateClear =>
    match b.stateOf id with
    | .error e => (.error e, b)
    | .ok _ => (.ok .nil, b.setState id [])
  | .component tag => (Factory.build tag args, b)
  | .emitter node sink =>
    match emission node args with
    | .error e => (.error e, b)
    | .ok e => (.ok .nil, b.emit sink e)

end Bridge

end ScriptHost
