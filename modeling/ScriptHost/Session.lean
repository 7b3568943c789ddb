import ScriptHost.Crossing
import ScriptHost.Config
import ScriptHost.Lua.Library

/-!
# Sessions

A `Session` is one opening of the interpreter: its heap, the functions that are pinned for the host, the
state of its scripts and whether the standard globals are installed.  Slots are given out once and never
again, so a handle can only ever mean the function that it was issued for.
-/

set_option autoImplicit false

namespace ScriptHost

open Lua (Datum Heap)

structure Session where
  id : SessionId
  heap : Heap
  pins : List Pin
  nextSlot : Nat
  state : Dict Value
  installed : Bool
  -- how many runs are under way
  runs : Nat
  -- how often everything was unpinned
  releases : Nat
deriving Inhabited

namespace Session

def start (id : SessionId) (config : Config) : Session :=
  ⟨id, Heap.start config.sandbox (config.memoryLimit.map .upTo), [], 1, [], false, 0, 0⟩

def slotsOf (v : Value) : List Nat := v.handles.map (·.slot)

def outward (s : Session) (d : Datum) : Except ScriptError Value × Session :=
  -- slots that were given out along the way are used up even if nothing comes of it
  match Crossing.outward s.heap d ⟨s.id, s.nextSlot, []⟩ with
  | (.error e, issue) => (.error e, { s with nextSlot := issue.next })
  | (.ok v, issue) =>
    let slots := slotsOf v
    let kept := issue.functions.filter fun p => slots.contains p.1
    (.ok v, { s with
      nextSlot := issue.next
      pins := s.pins ++ (kept.map fun p => ⟨p.1, p.2, 1⟩).reverse })

def inward (s : Session) (v : Value) : Except ScriptError (Datum × Session) :=
  (Crossing.inward s.id s.pins v s.heap).map fun r => (r.1, { s with heap := r.2 })

def inwardAll (s : Session) (vs : List Value) : Except ScriptError (List Datum × Session) :=
  (Crossing.inwardAll s.id s.pins vs s.heap).map fun r => (r.1, { s with heap := r.2 })

def pin (s : Session) (f : Datum) : Handle × Session :=
  (⟨s.id, s.nextSlot⟩,
    { s with nextSlot := s.nextSlot + 1, pins := s.pins ++ [⟨s.nextSlot, f, 1⟩] })

def retain (s : Session) (handle : Handle) : Session :=
  if handle.session = s.id then
    { s with pins := s.pins.map fun p =>
        if p.slot = handle.slot then { p with holders := p.holders + 1 } else p }
  else s

def drop (s : Session) (handle : Handle) : Session :=
  -- the last holder unpins the function
  if handle.session = s.id then
    { s with pins := s.pins.filterMap fun p =>
        if p.slot = handle.slot then
          if p.holders ≤ 1 then none else some { p with holders := p.holders - 1 }
        else some p }
  else s

def dropAll (s : Session) (handles : List Handle) : Session := handles.foldl drop s

def dropFrom (s : Session) (slot : Nat) : Session :=
  { s with pins := s.pins.filter fun p => p.slot < slot }

def release (s : Session) : Nat × Session :=
  (s.pins.length, { s with pins := [], releases := s.releases + 1 })

end Session

end ScriptHost
