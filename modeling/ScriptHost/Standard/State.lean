import ScriptHost.Value.Text
import ScriptHost.ScriptError

/-!
# State kept across runs

Scripts keep plain values under names.  Storing nil removes a name, and a value that holds a function
at any depth is refused.
-/

set_option autoImplicit false

namespace ScriptHost

namespace State

def key (operation : String) : List Value → Except ScriptError String
  | .string key :: _ => .ok key
  | _ => .error (.runtime (operation ++ ": key must be a string"))

def holdsFunction (key : String) : ScriptError :=
  .marshal ("state.set: value for '" ++ key ++ "' holds a function; state keeps plain data only")

def get (d : Dict Value) (args : List Value) : Except ScriptError Value :=
  (key "state.get" args).map fun k => (Dict.find? d k).getD .nil

def set (d : Dict Value) (args : List Value) : Except ScriptError (Dict Value) :=
  match key "state.set" args with
  | .error e => .error e
  | .ok k =>
    let v := args[1]?.getD .nil
    if v.holdsFunction then .error (holdsFunction k)
    else if v.isNil then .ok (Dict.erase d k)
    else .ok (Dict.insert d k v)

end State

end ScriptHost
