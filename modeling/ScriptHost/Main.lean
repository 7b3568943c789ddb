import ScriptHost.CommandLine

/-!
# The program

Reads the files that its command line names, and prints what `CommandLine.output` says.
-/

set_option autoImplicit false

namespace ScriptHost.Program

def fuel : Nat := 1000000000000000000

def readFiles : List String → IO FileTree
  | [] => return .empty
  | path :: rest => do
    let t ← readFiles rest
    match ← (IO.FS.readBinFile path).toBaseIO with
    | .ok content => return t.write path ⟨content, 0⟩
    | .error _ => return t

def perform (c : CommandLine) : IO UInt32 := do
  match c.output fuel (← readFiles c.files) with
  | .ok text => do
    IO.println text
    return 0
  | .error message => do
    IO.eprintln ("Error: " ++ message)
    return 1

end ScriptHost.Program

def main (args : List String) : IO UInt32 := do
  match ScriptHost.CommandLine.ofArgs args with
  | .ok c => ScriptHost.Program.perform c
  | .error message => do
    IO.eprintln message
    return 2
