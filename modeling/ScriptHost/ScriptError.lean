import ScriptHost.Graph.Fault

/-!
# Errors of the script host

A `ScriptError` is a cause.  Each has a kind, a message without the kind's word, and a display text
with it.  An error that crosses the interpreter is rebuilt by `ScriptError.crossed`: syntax, marshal
and closed keep their kind, everything else becomes a runtime error with the same message.
-/

set_option autoImplicit false

namespace ScriptHost

inductive FileFault where
  | notFound
  | isDirectory
  | notDirectory
  | notText
  | nameTooLong
  | zeroInName
deriving DecidableEq, Inhabited, Repr

def FileFault.message : FileFault → String
  | .notFound => "No such file or directory (os error 2)"
  | .isDirectory => "Is a directory (os error 21)"
  | .notDirectory => "Not a directory (os error 20)"
  | .notText => "stream did not contain valid UTF-8"
  | .nameTooLong => "File name too long (os error 36)"
  | .zeroInName => "file name contained an unexpected NUL byte"

inductive ErrorKind where
  | syntaxKind
  | runtime
  | marshal
  | closed
  | config
  | io
deriving DecidableEq, Inhabited, Repr

def ErrorKind.name : ErrorKind → String
  | .syntaxKind => "syntax"
  | .runtime => "runtime"
  | .marshal => "marshal"
  | .closed => "closed"
  | .config => "config"
  | .io => "io"

inductive ScriptError where
  | malformed (message : String)
  | runtime (message : String)
  | marshal (message : String)
  | typeMismatch (expected actual : String)
  | closed
  | malformedConfig
  | invalidConfig (message : String)
  | file (fault : FileFault)
  | json (message : String)
  | scriptNotFound (path : String)
  | graph (fault : GraphFault)
deriving DecidableEq, Inhabited, Repr

namespace ScriptError

def outOfMemory : ScriptError := .runtime "out of memory: not enough memory"

def kind : ScriptError → ErrorKind
  | .malformed _ => .syntaxKind
  | .runtime _ => .runtime
  | .marshal _ => .marshal
  | .typeMismatch _ _ => .marshal
  | .closed => .closed
  | .malformedConfig => .config
  | .invalidConfig _ => .config
  | .file _ => .io
  | .json _ => .marshal
  | .scriptNotFound _ => .io
  | .graph _ => .runtime

def message : ScriptError → String
  | .malformed m => m
  | .runtime m => m
  | .marshal m => m
  | .typeMismatch expected actual => "expected " ++ expected ++ ", got " ++ actual
  | .closed => "interpreter state is closed"
  | .malformedConfig => "Failed to parse KDL document"
  | .invalidConfig m => m
  | .file fault => fault.message
  | .json m => m
  | .scriptNotFound path => path
  | .graph fault => fault.message

def display : ScriptError → String
  | .malformed m => "Syntax error: " ++ m
  | .runtime m => "Runtime error: " ++ m
  | .marshal m => "Marshal error: " ++ m
  | .typeMismatch expected actual => "Type error: expected " ++ expected ++ ", got " ++ actual
  | .closed => "Interpreter state is closed"
  | .malformedConfig => "KDL parse error: " ++ message .malformedConfig
  | .invalidConfig m => "Invalid config: " ++ m
  | .file fault => "IO error: " ++ fault.message
  | .json m => "JSON error: " ++ m
  | .scriptNotFound path => "Script not found: " ++ path
  | .graph fault => "Node graph error: " ++ fault.message

def crossed (e : ScriptError) : ScriptError :=
  match e.kind with
  | .syntaxKind => .malformed e.message
  | .marshal => .marshal e.message
  | .closed => .closed
  | _ => .runtime e.message

def cause? : ScriptError → Option String
  | .malformedConfig => some (message .malformedConfig)
  | .file fault => some fault.message
  | .json m => some m
  | .graph fault => some fault.message
  | _ => none

end ScriptError

structure Diagnostic where
  kind : ErrorKind
  message : String
  chunk : String
deriving DecidableEq, Inhabited, Repr

namespace Diagnostic

def ofError (e : ScriptError) (chunk : String) : Diagnostic := ⟨e.kind, e.message, chunk⟩

def display (d : Diagnostic) : String := d.kind.name ++ " error in " ++ d.chunk ++ ": " ++ d.message

end Diagnostic

end ScriptHost
