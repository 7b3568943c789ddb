import ScriptHost.FileTree
import ScriptHost.Ui.Run

/-!
# Script files

A `ScriptFile` is the source of a file as it was last read, with the modification time it had then.  It
is read again when the file is newer.  A run of it is printed as a tree, as the lack of one, or as a
diagnostic.
-/

set_option autoImplicit false

namespace ScriptHost

structure ScriptFile where
  path : String
  source : String
  modified : Option Int
deriving DecidableEq, Inhabited, Repr

namespace ScriptFile

def load (t : FileTree) (path : String) : Except ScriptError ScriptFile :=
  if t.isFile path then
    match t.readText path with
    | .ok source => .ok ⟨path, source, t.modified? path⟩
    | .error e => .error (.file e)
  else .error (.scriptNotFound path)

def chunkName (f : ScriptFile) : String :=
  match ((FileTree.parts f.path).filter fun p => p ≠ "" ∧ p ≠ ".").getLast? with
  | some name => if name = ".." then f.path else name
  | none => f.path

def isModified (f : ScriptFile) (t : FileTree) : Bool :=
  match f.modified, t.modified? f.path with
  | some read, some now => read < now
  | _, _ => false

def reload (f : ScriptFile) (t : FileTree) : Except ScriptError ScriptFile :=
  match t.readText f.path with
  | .ok source => .ok { f with source, modified := t.modified? f.path }
  | .error e => .error (.file e)

def reloadIfModified (f : ScriptFile) (t : FileTree) : Except ScriptError (Bool × ScriptFile) :=
  if f.isModified t then (f.reload t).map fun f => (true, f) else .ok (false, f)

end ScriptFile

inductive RunOutput where
  | tree (text : String)
  | noTree
  | failed (d : Diagnostic)
deriving DecidableEq, Inhabited, Repr

namespace RunOutput

def kindName : RunOutput → String
  | .tree _ => "tree"
  | .noTree => "none"
  | .failed _ => "failed"

def display : RunOutput → String
  | .tree text => text
  | .noTree => "(script returned no UI tree)"
  | .failed d => d.display

end RunOutput

namespace Bridge

def runFile (host : Host) (fuel : Nat) (b : Bridge) (f : ScriptFile) :
    Option (Except Diagnostic (Option UiNode) × Bridge) :=
  b.runUiNamed host fuel f.source f.chunkName

def runScript (host : Host) (fuel : Nat) (b : Bridge) (f : ScriptFile) :
    Option (RunOutput × Bridge) :=
  (b.runFile host fuel f).map fun r =>
    match r.1 with
    | .ok (some n) => (.tree n.toJson.pretty, r.2.dropAll n.handles)
    | .ok none => (.noTree, r.2)
    | .error d => (.failed d, r.2)

end Bridge

namespace Config

def ofFile (t : FileTree) (path : String) : Except ScriptError Config :=
  match t.readText path with
  | .error e => .error (.file e)
  | .ok text => ofText text

def loadMessage (path : String) (e : ScriptError) : String :=
  "Failed to load config " ++ path ++ ": " ++ e.display
    ++ (match e.cause? with
      | some cause => ": " ++ cause
      | none => "")

def load (t : FileTree) (path : Option String) : Except String Config :=
  match path with
  | none => .ok standard
  | some path =>
    match ofFile t path with
    | .ok c => .ok c
    | .error e => .error (loadMessage path e)

end Config

end ScriptHost
