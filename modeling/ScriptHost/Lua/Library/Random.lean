import ScriptHost.Lua.Library.Arguments

/-!
# Random numbers

The generator has four words of state, which are kept in cells.  A script that gives a seed gets the numbers
of that seed; without one an interpreter begins with a seed that is not determined, here with that of zeros.
-/

set_option autoImplicit false

namespace ScriptHost.Lua.Library

open Arguments

structure Generator where
  a : UInt64
  b : UInt64
  c : UInt64
  d : UInt64

namespace Generator

def rotate (x : UInt64) (n : UInt64) : UInt64 := (x <<< n) ||| (x >>> (64 - n))

def next (g : Generator) : UInt64 × Generator :=
  let c := g.c ^^^ g.a
  let d := g.d ^^^ g.b
  (rotate (g.b * 5) 7 * 9, ⟨g.a ^^^ d, g.b ^^^ c, c ^^^ (g.b <<< 17), rotate d 45⟩)

def skip : Nat → Generator → Generator
  | 0, g => g
  | n + 1, g => skip n g.next.2

def seeded (m n : UInt64) : Generator := skip 16 ⟨m, 0xff, n, 0⟩

def allOnes (n : UInt64) : UInt64 :=
  if n = 0 then 0 else UInt64.ofNat (Nat.pow 2 (Nat.log2 n.toNat + 1) - 1)

def drawLimit : Nat :=
  -- how often numbers are drawn before one is in bounds; each of them is with even chances
  1000

def project (bound : UInt64) : Nat → UInt64 → Generator → UInt64 × Generator
  | 0, x, g => (x % (bound + 1), g)
  | fuel + 1, x, g =>
    let x := x &&& allOnes bound
    if x ≤ bound then (x, g) else project bound fuel g.next.1 g.next.2

def data (g : Generator) : List Datum := [g.a, g.b, g.c, g.d].map fun x => .int x.toInt64

def ofCells (h : Heap) (cell : Nat) : Generator :=
  let word (n : Nat) : UInt64 := ((h.cell (cell + n)).toInt?.getD 0).toUInt64
  ⟨word 0, word 1, word 2, word 3⟩

def store (g : Generator) (cell : Nat) (h : Heap) : Heap :=
  (((h.setCell cell (.int g.a.toInt64)).setCell (cell + 1) (.int g.b.toInt64)).setCell (cell + 2)
    (.int g.c.toInt64)).setCell (cell + 3) (.int g.d.toInt64)

end Generator

def drawn (args : List Datum) (x : UInt64) (g : Generator) : Checked (Datum × Generator) :=
  let between (low high : Int64) : Checked (Datum × Generator) :=
    if low ≤ high then
      let (y, g) := g.project (high.toUInt64 - low.toUInt64) Generator.drawLimit x
      .ok (.int (y + low.toUInt64).toInt64, g)
    else .error (.argument 2 "interval is empty")
  match args.length with
  | 0 => .ok (.float (.ofBinary (x >>> 11).toNat (-53)), g)
  | 1 => do
    let high ← integer args 1
    if high = 0 then return (.int x.toInt64, g) else between 1 high
  | 2 => do between (← integer args 1) (← integer args 2)
  | _ => .error (.failure "wrong number of arguments")

def random (cell : Nat) (args : List Datum) (wrong : Complaint → Heap → Step) (h : Heap) : Step :=
  let (x, g) := (Generator.ofCells h cell).next
  match drawn args x g with
  | .ok (d, g) => .finish [d] (g.store cell h)
  | .error c => wrong c (g.store cell h)

def randomSeed (cell : Nat) (args : List Datum) (wrong : Complaint → Heap → Step) (h : Heap) : Step :=
  let read : Checked (Int64 × Int64) :=
    if isGiven args 1 then do return (← integer args 1, ← integerOr args 2 0) else .ok (0, 0)
  match read with
  | .ok (m, n) => .finish [.int m, .int n] ((Generator.seeded m.toUInt64 n.toUInt64).store cell h)
  | .error c => wrong c h

end ScriptHost.Lua.Library
