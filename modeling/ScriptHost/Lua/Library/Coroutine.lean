import ScriptHost.Lua.Library.Arguments

/-!
# The library of coroutines

A coroutine sleeps until it is resumed and runs until it yields, returns or fails.  It may not yield inside a
function of the library or of the host, and it runs only in the run that made it.
-/

set_option autoImplicit false

namespace ScriptHost.Lua.Library

open Arguments

def mainThread : Nat := 4

def thread (args : List Datum) (n : Nat) : Checked Nat :=
  match arg args n with
  | .thread t => .ok t
  | _ => wrongType args n "coroutine"

def statusName : ThreadStatus → String
  | .suspended => "suspended"
  | .running => "running"
  | .normal => "normal"
  | .dead => "dead"
  | .foreign => "foreign"

def refuseForeign (caller : Caller) (h : Heap) : Step :=
  raise (caller.level 1) "a coroutine of another run is not supported" h

def createCoroutine (args : List Datum) (wrong : Complaint → Heap → Step) (k : Nat → Heap → Step) (h : Heap) :
    Step :=
  match function args 1 with
  | .error c => wrong c h
  | .ok f =>
    claim threadSize (fun h =>
      let (t, h) := h.addThread
      .spawn t f h (k t)) h

def wrapCoroutine (args : List Datum) (wrong : Complaint → Heap → Step) (h : Heap) : Step :=
  createCoroutine args wrong (fun t h =>
    claim functionSize (fun h =>
      let (a, h) := h.addRoutine (.library (.coroutineWrapped t))
      .finish [.function a] h) h) h

def resumeThread (t : Nat) (args : List Datum) (caller : Caller) (k : List Datum → Heap → Step) (h : Heap) :
    Step :=
  match caller.status t with
  | .suspended => .wake t args h k
  | .dead => k [.bool false, .text "cannot resume dead coroutine"] h
  | .foreign => refuseForeign caller h
  | _ => k [.bool false, .text "cannot resume non-suspended coroutine"] h

def resumeCoroutine (args : List Datum) (caller : Caller) (wrong : Complaint → Heap → Step) (h : Heap) :
    Step :=
  match thread args 1 with
  | .error c => wrong c h
  | .ok t => resumeThread t (args.drop 1) caller (fun vs h => .finish vs h) h

def resumeWrapped (t : Nat) (args : List Datum) (caller : Caller) (h : Heap) : Step :=
  -- a string that is thrown gets the place where the coroutine was resumed
  resumeThread t args caller (fun vs h =>
    match vs with
    | .bool true :: rest => .finish rest h
    | _ =>
      match vs.getD 1 .nil with
      | .string s => raiseBytes (caller.level 1) s h
      | d => .throw (.value d) h) h

def yieldValues (args : List Datum) (caller : Caller) (h : Heap) : Step :=
  if caller.yields then .yield args h fun vs h => .finish vs h
  else if caller.running.isNone then raise none "attempt to yield from outside a coroutine" h
  else raise none "attempt to yield across a C-call boundary" h

def runningThread (caller : Caller) : List Datum :=
  match caller.running with
  | some t => [.thread t, .bool false]
  | none => [.thread mainThread, .bool true]

def isYieldable (args : List Datum) (caller : Caller) : Checked (List Datum) := do
  let running := caller.running.getD mainThread
  let t ← if (arg args 1).isNil then .ok running else thread args 1
  return [.bool (if t = running then caller.yields else t ≠ mainThread)]

def closeCoroutine (args : List Datum) (caller : Caller) (wrong : Complaint → Heap → Step) (h : Heap) : Step :=
  match thread args 1 with
  | .error c => wrong c h
  | .ok t =>
    match caller.status t with
    | .suspended => .shut t h fun vs h => .finish vs h
    | .dead =>
      match h.failure? t with
      | some e => .finish [.bool false, e] (h.endThread t)
      | none => .finish [.bool true] h
    | .foreign => refuseForeign caller h
    | s => raise (caller.level 1) ("cannot close a " ++ statusName s ++ " coroutine") h

def coroutineStatus (args : List Datum) (caller : Caller) (wrong : Complaint → Heap → Step) (h : Heap) :
    Step :=
  match thread args 1 with
  | .error c => wrong c h
  | .ok t =>
    match caller.status t with
    | .foreign => refuseForeign caller h
    | s => .finish [.text (statusName s)] h

end ScriptHost.Lua.Library
