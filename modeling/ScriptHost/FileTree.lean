import ScriptHost.ScriptError
import ScriptHost.Text.Utf8

/-!
# Files

A tree of files and directories below a working directory, as far as scripts and configurations need
it: paths are relative, a step through a file or to nothing fails, and a file has a modification time.
-/

set_option autoImplicit false

namespace ScriptHost

structure File where
  content : ByteArray
  modified : Int
deriving Inhabited

abbrev Location := List String

def Location.up (here : Location) : Location :=
  if here.all (· == "..") then here ++ [".."] else here.dropLast

structure FileTree where
  files : List (Location × File)
  directories : List Location
deriving Inhabited

namespace FileTree

def empty : FileTree := ⟨[], []⟩

def file? (t : FileTree) (here : Location) : Option File :=
  (t.files.find? fun e => e.1 == here).map (·.2)

def isDirectory (t : FileTree) (here : Location) : Bool :=
  here.all (· == "..") || t.directories.contains here

def parts (path : String) : List String := path.splitOn "/"

def nameLimit : Nat := 255

def pathLimit : Nat := 4095

def walk (t : FileTree) (here : Location) : List String → Except FileFault Location
  -- every step starts from a directory; empty steps and single points stay in it
  | [] => .ok here
  | step :: rest =>
    if t.isDirectory here then
      if step.utf8ByteSize > nameLimit then .error .nameTooLong
      else if step = "" ∨ step = "." then walk t here rest
      else if step = ".." then walk t (Location.up here) rest
      else walk t (here ++ [step]) rest
    else if (t.file? here).isSome then .error .notDirectory
    else .error .notFound

def locate (t : FileTree) (path : String) : Except FileFault Location :=
  if path.contains (Char.ofNat 0) then .error .zeroInName
  else if path.utf8ByteSize > pathLimit then .error .nameTooLong
  else if path = "" then .error .notFound
  else t.walk [] (parts path)

def open? (t : FileTree) (path : String) : Except FileFault File :=
  match t.locate path with
  | .error e => .error e
  | .ok here =>
    match t.file? here with
    | some f => .ok f
    | none => if t.isDirectory here then .error .isDirectory else .error .notFound

def isFile (t : FileTree) (path : String) : Bool :=
  match t.open? path with
  | .ok _ => true
  | .error _ => false

def readText (t : FileTree) (path : String) : Except FileFault String :=
  match t.open? path with
  | .error e => .error e
  | .ok f =>
    match Utf8.decode f.content with
    | .ok s => .ok s
    | .error _ => .error .notText

def modified? (t : FileTree) (path : String) : Option Int :=
  -- directories have no time here
  match t.open? path with
  | .ok f => some f.modified
  | .error _ => none

def destination (here : Location) : List String → Location
  | [] => here
  | step :: rest =>
    if step = "" ∨ step = "." then destination here rest
    else if step = ".." then destination (Location.up here) rest
    else destination (here ++ [step]) rest

def write (t : FileTree) (path : String) (f : File) : FileTree :=
  let here := destination [] (parts path)
  let above := (List.range here.length).map fun n => here.take n
  { files := (here, f) :: t.files.filter fun e => e.1 != here
    directories := t.directories ++ above.filter fun d => !t.isDirectory d }

def remove (t : FileTree) (path : String) : FileTree :=
  match t.locate path with
  | .error _ => t
  | .ok here => { t with files := t.files.filter fun e => e.1 != here }

end FileTree

end ScriptHost
