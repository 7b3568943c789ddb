import ScriptHost.Bridge.Run

/-!
# Installing globals

Host functions and tables of host functions become global variables.  The standard ones are
installed once per session.
-/

set_option autoImplicit false

namespace ScriptHost

open Lua (Datum Heap Machine Table entrySize functionSize stringSize tableSize)

inductive StandardGlobal where
  | function (f : StandardFn)
  | table (methods : List (String × StandardFn))

def standardGlobals : List (String × StandardGlobal) := [
  ("log", .function .log), ("print", .function .log),
  ("getComponents", .function .componentTags), ("getComponentInfo", .function .componentInfo),
  ("utils", .table [("deepCopy", .deepCopy), ("merge", .merge), ("format", .format)]),
  ("state", .table [("get", .stateGet), ("set", .stateSet), ("getAll", .stateAll),
    ("clear", .stateClear)]),
  ("ui", .table (Component.tags.map fun tag => (tag, .component tag)))]

namespace Bridge

def methodTable (t : Table) : List (String × HostFn) → Heap → Except ScriptError (Table × Heap)
  | [], h => .ok (t, h)
  | (name, f) :: rest, h =>
    match h.claim? (functionSize + stringSize name.utf8ByteSize + entrySize) with
    | none => .error .outOfMemory
    | some h =>
      let (a, h) := h.addRoutine (.host f)
      methodTable (t.set (.text name) (.function a)) rest h

def makeModule (methods : List (String × HostFn)) (h : Heap) : Except ScriptError (Datum × Heap) :=
  match h.claim? tableSize with
  | none => .error .outOfMemory
  | some h =>
    match methodTable .empty methods h with
    | .error e => .error e
    | .ok (t, h) =>
      let (a, h) := h.allocate t
      .ok (.table a, h)

def registerFunction (host : Host) (fuel : Nat) (b : Bridge) (name : String) (f : HostFn) :
    Answer Unit :=
  b.setGlobal host fuel name (.function f)

def registerModule (host : Host) (fuel : Nat) (b : Bridge) (name : String)
    (methods : List (String × HostFn)) : Answer Unit :=
  b.withSession fun s =>
    match makeModule methods s.heap with
    | .error e => b.answer (.error e)
    | .ok (t, h) =>
      (run host fuel (b.putHeap s.id h) s.id (.writing name t)).map fun r =>
        (r.1.map fun _ => (), r.2.leaveRun s.id)

def expose (host : Host) (fuel : Nat) (b : Bridge) (name : String) : StandardGlobal → Answer Unit
  | .function f => b.registerFunction host fuel name (.standard f)
  | .table methods =>
    b.registerModule host fuel name (methods.map fun m => (m.1, .standard m.2))

def exposeAll (host : Host) (fuel : Nat) (b : Bridge) :
    List (String × StandardGlobal) → Answer Unit
  | [] => b.answer (.ok ())
  | (name, g) :: rest =>
    (b.expose host fuel name g).next fun b _ => exposeAll host fuel b rest

def install (host : Host) (fuel : Nat) (b : Bridge) : Answer Bool :=
  b.withSession fun s =>
    if s.installed then b.answer (.ok false)
    else (b.exposeAll host fuel standardGlobals).next fun b _ =>
      (b.update s.id fun s => { s with installed := true }).answer (.ok true)

end Bridge

end ScriptHost
