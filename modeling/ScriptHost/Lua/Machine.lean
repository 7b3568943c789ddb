import ScriptHost.Lua.Library
import ScriptHost.Lua.Eval

/-!
# The machine that runs scripts

A `Machine` is the step that is next and the stack of calls that wait for it.  `Machine.advance` does
one step.  It stops when the script is finished or has failed, and when it calls a function of the host:
the host answers by resuming the stack with values or with a failure.
-/

set_option autoImplicit false

namespace ScriptHost.Lua

inductive Frame where
  | call (k : List Datum → Heap → Step) (place : Option Place)
  | guard (handler : Option Datum) (k : List Datum → Heap → Step)
  | closing (d : Datum)
  | resumed (thread : Nat) (k : List Datum → Heap → Step)
  -- a coroutine that sleeps, with what waits in it
  | asleep (thread : Nat) (k : List Datum → Heap → Step) (frames : List Frame)

namespace Frame

def isClosing : Frame → Bool
  | .closing _ => true
  | _ => false

def resumed? : Frame → Option Nat
  | .resumed thread _ => some thread
  | _ => none

def isAsleep (thread : Nat) : Frame → Bool
  | .asleep t _ _ => t == thread
  | _ => false

def yields : Frame → Bool
  -- what calls from no place is a function of the library
  | .call _ place => place.isSome
  | .closing _ => true
  | _ => false

def place : Frame → Option Place
  -- a protected call stands nowhere
  | .call _ place => place
  | _ => none

end Frame

structure Machine where
  now : Step
  -- the innermost call first
  stack : List Frame

inductive Turn where
  | running (m : Machine)
  | finished (values : List Datum) (h : Heap)
  | failed (e : Thrown) (h : Heap)
  | host (f : HostFn) (args : List Datum) (h : Heap) (stack : List Frame)

namespace Machine

def own (stack : List Frame) : List Frame := stack.takeWhile (·.resumed?.isNone)

def levels (stack : List Frame) (n : Nat) : Option Place :=
  ((own stack).filter (!·.isClosing))[n - 1]?.bind (·.place)

def running? (stack : List Frame) : Option Nat := stack.findSome? (·.resumed?)

def status (h : Heap) (stack : List Frame) (thread : Nat) : ThreadStatus :=
  if stack.any (·.isAsleep thread) then .suspended
  else if (running? stack).getD Library.mainThread = thread then .running
  else if thread = Library.mainThread ∨ stack.any (·.resumed? == some thread) then .normal
  else if h.isLive thread then .foreign
  else .dead

def takeAsleep (thread : Nat) :
    List Frame → Option ((List Datum → Heap → Step) × List Frame × List Frame)
  | [] => none
  | .asleep t k frames :: rest =>
    if t = thread then some (k, frames, rest)
    else (takeAsleep thread rest).map fun r => (r.1, r.2.1, .asleep t k frames :: r.2.2)
  | frame :: rest => (takeAsleep thread rest).map fun r => (r.1, r.2.1, frame :: r.2.2)

def splitRunning : List Frame → Option (List Frame × Nat × (List Datum → Heap → Step) × List Frame)
  | [] => none
  | .resumed thread k :: rest => some ([], thread, k, rest)
  | frame :: rest => (splitRunning rest).map fun r => (frame :: r.1, r.2)

def callChainLimit : Nat := 200

def calleeWithin (h : Heap) : Nat → Datum → List Datum → Except Datum (Routine × List Datum)
  -- a function itself, or a metamethod before the arguments; otherwise what it is that cannot be
  -- called
  | 0, f, _ => .error f
  | fuel + 1, f, args =>
    match f with
    | .function address =>
      match h.routines[address]? with
      | some r => .ok (r, args)
      | none => .error f
    | _ =>
      match h.metamethod f "__call" with
      | .nil => .error f
      | m => calleeWithin h fuel m (f :: args)

def callee (h : Heap) (f : Datum) (args : List Datum) : Except Datum (Routine × List Datum) :=
  calleeWithin h callChainLimit f args

def enter (r : Routine) (args : List Datum) (naming : Option Naming) (h : Heap)
    (stack : List Frame) : Turn :=
  match r with
  | .script f env => .running ⟨f.enter env args h, stack⟩
  | .library b =>
    let caller : Caller :=
      { naming
        level := levels stack
        running := running? stack
        yields := (running? stack).isSome && (own stack).all (·.yields)
        status := status h stack }
    .running ⟨Library.run b args caller h, stack⟩
  | .host f => .host f args h stack

def call (f : Datum) (args : List Datum) (spot : Spot) (h : Heap) (below inside : List Frame) :
    Turn :=
  match callee h f args with
  | .ok (r, args) => enter r args spot.naming h inside
  | .error d => .running ⟨refuse "call" d spot h, below⟩

def close (d e : Datum) (k : Heap → Step) (h : Heap) : Step :=
  if d.isTruthy then
    .call (h.metamethod d "__close") [d, e] ⟨none, some ⟨"metamethod", "close".toUTF8⟩⟩ h fun _ h => k h
  else k h

def unwind (e : Thrown) (h : Heap) : List Frame → Turn
  | [] => .failed e h
  | .call _ _ :: stack => unwind e h stack
  | .asleep _ _ _ :: stack => unwind e h stack
  | .resumed t k :: stack => .running ⟨k [.bool false, e.datum] (h.failThread t e.datum), stack⟩
  | .closing d :: stack => .running ⟨close d e.datum (fun h => .throw e h) h, stack⟩
  | .guard none k :: stack => .running ⟨k [.bool false, e.datum] h, stack⟩
  | .guard (some handler) k :: stack =>
    .running ⟨.attempt handler [e.datum] none h fun vs h => k (.bool false :: vs.drop 1) h, stack⟩

def advance (m : Machine) : Turn :=
  match m.now with
  | .finish values h =>
    match m.stack with
    | [] => .finished values h
    | .call k _ :: stack => .running ⟨k values h, stack⟩
    | .guard _ k :: stack => .running ⟨k (.bool true :: values) h, stack⟩
    | .closing d :: stack => .running ⟨close d .nil (fun h => .finish values h) h, stack⟩
    | .resumed t k :: stack => .running ⟨k (.bool true :: values) (h.endThread t), stack⟩
    | .asleep _ _ _ :: stack => .running ⟨.finish values h, stack⟩
  | .throw e h => unwind e h m.stack
  | .call f args spot h k => call f args spot h m.stack (.call k spot.place :: m.stack)
  | .tail f args spot h =>
    match callee h f args, m.stack.head?.any (·.isClosing) with
    | .ok (.script f env, args), false => .running ⟨f.enter env args h, m.stack⟩
    | _, _ =>
      call f args spot h m.stack (.call (fun vs h => .finish vs h) spot.place :: m.stack)
  | .attempt f args handler h k =>
    let inside := .guard handler k :: m.stack
    call f args .nowhere h inside inside
  | .again l h k => .running ⟨l.turn k h, m.stack⟩
  | .enclose d h k => .running ⟨k h, .closing d :: m.stack⟩
  | .leave h k =>
    match m.stack with
    | .closing d :: stack => .running ⟨close d .nil k h, stack⟩
    | stack => .running ⟨k h, stack⟩
  | .spawn t f h k =>
    .running ⟨k h, m.stack ++ [.asleep t (fun args h => .tail f args .nowhere h) []]⟩
  | .wake t args h k =>
    match takeAsleep t m.stack with
    | some (next, frames, rest) => .running ⟨next args h, frames ++ .resumed t k :: rest⟩
    | none => .running ⟨k [] h, m.stack⟩
  | .yield values h k =>
    match splitRunning m.stack with
    | some (frames, t, next, rest) =>
      .running ⟨next (.bool true :: values) h, rest ++ [.asleep t k frames]⟩
    | none => .running ⟨k [] h, m.stack⟩
  | .shut t h k =>
    match takeAsleep t m.stack with
    | some (_, frames, rest) =>
      let ended := Frame.resumed t fun vs h => k vs (h.endThread t)
      .running ⟨.finish [] h, frames.filter (·.isClosing) ++ ended :: rest⟩
    | none => .running ⟨k [] h, m.stack⟩
  | .pause h k => .running ⟨k h, m.stack⟩

def resume (values : List Datum) (h : Heap) (stack : List Frame) : Machine :=
  ⟨.finish values h, stack⟩

def interrupt (e : ScriptError) (h : Heap) (stack : List Frame) : Machine :=
  let (n, h) := h.serial
  ⟨.throw (.value (.failure n (.through (.raised e)))) h, stack⟩

def start (f : Datum) (args : List Datum) (h : Heap) : Machine :=
  ⟨.tail f args .nowhere h, []⟩

def reading (name : String) (h : Heap) : Machine :=
  ⟨build name.toUTF8 (fun name h =>
    index (.table h.globals) name .nowhere (fun v h => .finish [v] h) h) h, []⟩

def writing (name : String) (value : Datum) (h : Heap) : Machine :=
  ⟨build name.toUTF8 (fun name h =>
    setIndex (.table h.globals) name value .nowhere (fun h => .finish [] h) h) h, []⟩

def describing (d : Datum) (h : Heap) : Machine :=
  ⟨toText d none (fun s h => .finish [.string s] h) h, []⟩

end Machine

end ScriptHost.Lua
