import ScriptHost.Lua.Table
import ScriptHost.Lua.Syntax
import ScriptHost.Value

/-!
# The heap of an interpreter

Tables, functions and the cells of local variables, each known by its address.  Nothing is ever
removed, so an address stays what it is.  An interpreter with a memory limit asks its allocator for every
string, table, table entry and function that it makes; what the allocator refuses is not made.
-/

set_option autoImplicit false

namespace ScriptHost.Lua

inductive FloatFn where
  | acos
  | asin
  | cos
  | cosh
  | deg
  | exp
  | log10
  | rad
  | sin
  | sinh
  | sqrt
  | tan
  | tanh
deriving DecidableEq, Inhabited, Repr

inductive Builtin where
  | assert
  | collectGarbage
  | error
  | getMetatable
  | ipairs
  | load
  | next
  | pairs
  | pcall
  | print
  | rawEqual
  | rawGet
  | rawLength
  | rawSet
  | select
  | setMetatable
  | toNumber
  | toText
  | type
  | warn
  | xpcall
  | ipairsStep
  | stringByte
  | stringChar
  | stringFind
  | stringFormat
  | stringLength
  | stringLower
  | stringMatch
  | stringMatches
  | matchesStep (cell : Nat)
  | stringPack
  | stringPackSize
  | stringRepeat
  | stringReplace
  | stringReverse
  | stringSub
  | stringUnpack
  | stringUpper
  | tableConcat
  | tableInsert
  | tableMove
  | tablePack
  | tableRemove
  | tableSort
  | tableUnpack
  | mathAbs
  | mathAtan
  | mathCeil
  | mathFloat (f : FloatFn)
  | mathFloor
  | mathFmod
  | mathFrexp
  | mathLdexp
  | mathLog
  | mathMax
  | mathMin
  | mathModf
  | mathPow
  | mathRandom (cell : Nat)
  | mathRandomSeed (cell : Nat)
  | mathToInteger
  | mathType
  | mathUlt
  | utf8Char
  | utf8CodePoint
  | utf8Codes
  | codesStep (strict : Bool)
  | utf8Length
  | utf8Offset
  | coroutineClose
  | coroutineCreate
  | coroutineIsYieldable
  | coroutineResume
  | coroutineRunning
  | coroutineStatus
  | coroutineWrap
  | coroutineWrapped (thread : Nat)
  | coroutineYield
  | unsupported (name : String)
deriving DecidableEq, Inhabited, Repr

structure Variable where
  name : String
  cell : Nat
  level : Nat
deriving Inhabited

structure Env where
  chunk : ByteArray
  level : Nat
  -- how many variables of the function are to be closed, those of the functions around included
  pending : Nat
  visible : List Variable
  extra : List Datum
deriving Inhabited

inductive Routine where
  | script (f : Function) (env : Env)
  | library (b : Builtin)
  | host (f : HostFn)
deriving Inhabited

def Routine.isLibrary (b : Builtin) : Routine → Bool
  | .library c => b == c
  | _ => false

abbrev Allocator := Nat → Nat → Bool

def Allocator.upTo (limit : Nat) : Allocator := fun spent size => spent + size ≤ limit

def stringSize (length : Nat) : Nat := 25 + length

def tableSize : Nat := 56

def entrySize : Nat := 40

def functionSize : Nat := 40

def threadSize : Nat := 1024

structure Heap where
  tables : Array Table
  routines : Array Routine
  cells : Array Datum
  serials : Nat
  globals : Nat
  strings : Nat
  allocator : Option Allocator
  spent : Nat
  -- the table of global variables is never missing
  there : globals < tables.size

instance : Inhabited Heap := ⟨⟨#[.empty], #[], #[], 0, 0, 0, none, 0, Nat.one_pos⟩⟩

namespace Heap

def table (h : Heap) (address : Nat) : Table := h.tables.getD address .empty

def allocate (h : Heap) (t : Table) : Nat × Heap :=
  (h.tables.size, { h with
    tables := h.tables.push t
    there := by simpa using Nat.lt_succ_of_lt h.there })

def get (h : Heap) (address : Nat) (key : Datum) : Datum := (h.table address).get key

def modify (h : Heap) (address : Nat) (f : Table → Table) : Heap :=
  { h with tables := h.tables.modify address f, there := by simpa using h.there }

def set (h : Heap) (address : Nat) (key value : Datum) : Heap :=
  h.modify address fun t => t.set key value

def setMetatable (h : Heap) (address : Nat) (metatable : Option Nat) : Heap :=
  h.modify address fun t => { t with metatable }

def addRoutine (h : Heap) (r : Routine) : Nat × Heap :=
  (h.routines.size, { h with routines := h.routines.push r })

def libraryFunction (h : Heap) (b : Builtin) : Datum :=
  -- a function of the library, wherever scripts may have put it
  match h.routines.findIdx? (Routine.isLibrary b) with
  | some address => .function address
  | none => .nil

def addCell (h : Heap) (d : Datum) : Nat × Heap :=
  (h.cells.size, { h with cells := h.cells.push d })

def cell (h : Heap) (address : Nat) : Datum := h.cells.getD address .nil

def setCell (h : Heap) (address : Nat) (d : Datum) : Heap :=
  { h with cells := h.cells.setIfInBounds address d }

def addThread (h : Heap) : Nat × Heap :=
  -- a coroutine is known by its cells: whether it may still run, and what it failed with
  let (t, h) := h.addCell (.bool true)
  (t, (h.addCell .nil).2)

def isLive (h : Heap) (thread : Nat) : Bool := h.cell thread == .bool true

def endThread (h : Heap) (thread : Nat) : Heap := h.setCell thread (.bool false)

def failThread (h : Heap) (thread : Nat) (e : Datum) : Heap :=
  (h.setCell thread .nil).setCell (thread + 1) e

def failure? (h : Heap) (thread : Nat) : Option Datum :=
  if (h.cell thread).isNil then some (h.cell (thread + 1)) else none

def serial (h : Heap) : Nat × Heap := (h.serials, { h with serials := h.serials + 1 })

def claim? (h : Heap) (size : Nat) : Option Heap :=
  match h.allocator with
  | none => some h
  | some grants => if grants h.spent size then some { h with spent := h.spent + size } else none

def footprint (h : Heap) : Nat :=
  h.tables.foldl (fun n t => n + tableSize + entrySize * (t.items.size + t.entries.length)) 0
    + functionSize * h.routines.size

def metatable? (h : Heap) : Datum → Option Nat
  | .table address => (h.table address).metatable
  | .string _ => some h.strings
  | _ => none

def metamethod (h : Heap) (d : Datum) (event : String) : Datum :=
  match h.metatable? d with
  | some m => h.get m (.text event)
  | none => .nil

def addCells (h : Heap) : List Datum → List Nat × Heap
  | [] => ([], h)
  | d :: rest =>
    let (a, h) := h.addCell d
    let (as, h) := addCells h rest
    (a :: as, h)

end Heap

end ScriptHost.Lua
