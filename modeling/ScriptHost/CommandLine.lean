import ScriptHost.Listing
import ScriptHost.ScriptFile

/-!
# The command line

A command line names a command and perhaps a configuration file.  `CommandLine.output` is what it prints,
given the files it may read.
-/

set_option autoImplicit false

namespace ScriptHost

inductive Command where
  | run (path : String)
  | eval (source : String)
  | components
  | nodes (category : Option Category)
deriving DecidableEq, Repr

structure CommandLine where
  config : Option String
  command : Command
deriving DecidableEq, Repr

namespace CommandLine

def usage : String :=
  "usage: scripthost [--config FILE] run FILE | eval CODE | components | nodes [--category NAME]"

def configOf : List String → Option String × List String
  | "--config" :: path :: rest => (some path, (configOf rest).2)
  | "-c" :: path :: rest => (some path, (configOf rest).2)
  | arg :: rest =>
    let (config, words) := configOf rest
    (config, arg :: words)
  | [] => (none, [])

def commandOf : List String → Except String Command
  | ["run", path] => .ok (.run path)
  | ["eval", source] => .ok (.eval source)
  | ["components"] => .ok .components
  | ["nodes"] => .ok (.nodes none)
  | ["nodes", "--category", name] =>
    match Category.ofName? name with
    | some c => .ok (.nodes (some c))
    | none => .error (Category.unknownMessage name)
  | _ => .error usage

def ofArgs (args : List String) : Except String CommandLine :=
  let (config, words) := configOf args
  (commandOf words).map fun command => ⟨config, command⟩

def files (c : CommandLine) : List String :=
  c.config.toList ++ match c.command with
    | .run path => [path]
    | _ => []

def tooLong : String := "too many steps"

def freshBridge (fuel : Nat) (config : Config) : Except String Bridge :=
  match (Bridge.start 0 config).install Host.none fuel with
  | none => .error tooLong
  | some (.error e, _) => .error e.display
  | some (.ok _, b) => .ok b

def runOutput (fuel : Nat) (t : FileTree) (config : Config) (path : String) : Except String String :=
  match freshBridge fuel config, ScriptFile.load t path with
  | .error m, _ => .error m
  | .ok _, .error e => .error e.display
  | .ok b, .ok f =>
    match b.runScript Host.none fuel f with
    | none => .error tooLong
    | some (.failed d, _) => .error d.display
    | some (out, _) => .ok out.display

def evalOutput (fuel : Nat) (config : Config) (source : String) : Except String String :=
  match freshBridge fuel config with
  | .error m => .error m
  | .ok b =>
    match b.evaluate Host.none fuel source with
    | none => .error tooLong
    | some (.error e, _) => .error e.display
    | some (.ok text, _) => .ok text

def output (fuel : Nat) (t : FileTree) (c : CommandLine) : Except String String :=
  match Config.load t c.config with
  | .error m => .error m
  | .ok config =>
    match c.command with
    | .run path => runOutput fuel t config path
    | .eval source => evalOutput fuel config source
    | .components => .ok ("\n".intercalate componentListing)
    | .nodes category => .ok ("\n".intercalate (nodeListing .seeded category))

end CommandLine

end ScriptHost
