import ScriptHost.Lua.Library.Arguments

/-!
# The basic library

Functions on data of any type: types and texts, raw access, metatables, iteration, errors and
protected calls.
-/

set_option autoImplicit false

namespace ScriptHost.Lua.Library

open Arguments

def typeOf (args : List Datum) : Checked (List Datum) := do
  return [.text (← any args 1).typeName]

def rawEqual (args : List Datum) : Checked (List Datum) := do
  let a ← any args 1
  let b ← any args 2
  return [.bool (a.equals b)]

def rawLength (args : List Datum) (h : Heap) : Checked (List Datum) :=
  match arg args 1 with
  | .table a => .ok [.ofNat (h.table a).border]
  | .string s => .ok [.ofNat s.size]
  | _ => wrongType args 1 "table or string"

def rawGet (args : List Datum) (h : Heap) : Checked (List Datum) := do
  let a ← table args 1
  let key ← any args 2
  return [match key.key? with
    | some key => h.get a key
    | none => .nil]

def rawSetArgs (args : List Datum) : Checked (Nat × Datum × Datum) := do
  let a ← table args 1
  let key ← any args 2
  let value ← any args 3
  return (a, key, value)

def nextPair (args : List Datum) (h : Heap) : Checked (Option (List Datum)) := do
  let a ← table args 1
  let key := arg args 2
  let found := if key.isNil then (h.table a).next? .nil
    else key.key?.bind fun key => (h.table a).next? key
  return found.map fun e => match e with
    | some (k, v) => [k, v]
    | none => [.nil]

def select (args : List Datum) : Checked (List Datum) := do
  let counting := match arg args 1 with
    | .string s => s.toList.head? == some 35
    | _ => false
  if counting then return [.ofNat (args.length - 1)]
  else
    let i := (← integer args 1).toInt
    let n := args.length
    if 0 ≤ i then
      if i = 0 then .error (.argument 1 "index out of range") else return args.drop i.toNat
    else
      if n + i ≤ 0 then .error (.argument 1 "index out of range")
      else return args.drop (n + i).toNat

def digitValue? (b : UInt8) : Option Nat :=
  if 48 ≤ b && b ≤ 57 then some (b.toNat - 48)
  else if 97 ≤ b && b ≤ 122 then some (b.toNat - 87)
  else if 65 ≤ b && b ≤ 90 then some (b.toNat - 55)
  else none

def integerIn? (base : Nat) (s : ByteArray) : Option Int64 :=
  let cs := Numeral.trim (byteChars s)
  let (negative, digits) := Numeral.sign cs
  let values := digits.map fun c => digitValue? (UInt8.ofNat c.toNat)
  if digits.isEmpty || !values.all (fun v => v.any (· < base)) then none
  else
    let n : Int := values.foldl (fun n v => n * base + v.getD 0) 0
    some (Int64.ofInt (if negative then -n else n))

def toNumber (args : List Datum) : Checked (List Datum) := do
  if (arg args 2).isNil then
    match (arg args 1).toNumber? with
    | some n => return [n.toDatum]
    | none =>
      let _ ← any args 1
      return [.nil]
  else
    let base := (← integer args 2).toInt
    match arg args 1 with
    | .string s =>
      if 2 ≤ base ∧ base ≤ 36 then
        return [match integerIn? base.toNat s with
          | some n => .int n
          | none => .nil]
      else .error (.argument 2 "base out of range")
    | _ => wrongType args 1 "string"

def getMetatable (args : List Datum) (h : Heap) : Checked (List Datum) := do
  let d ← any args 1
  match h.metatable? d with
  | none => return [.nil]
  | some m =>
    return [match h.get m (.text "__metatable") with
      | .nil => .table m
      | hidden => hidden]

def setMetatable (args : List Datum) (h : Heap) : Checked (Datum × Heap) := do
  let a ← table args 1
  let m ← match arg args 2 with
    | .table m => .ok (some m)
    | .nil => if isGiven args 2 then .ok none else wrongType args 2 "nil or table"
    | _ => wrongType args 2 "nil or table"
  if (h.metamethod (.table a) "__metatable").isNil then return (.table a, h.setMetatable a m)
  else .error (.failure "cannot change a protected metatable")

def collectGarbage (args : List Datum) : Checked (List Datum) := do
  let option ← bytesOr args 1 "collect".toUTF8
  match String.fromUTF8? option with
  | some "count" => return [.float (.ofInt 64)]
  | some "step" => return [.bool true]
  | some "isrunning" => return [.bool true]
  | some "generational" => return [.text "incremental"]
  | some "incremental" => return [.text "incremental"]
  | some "collect" => return [.ofNat 0]
  | some "stop" => return [.ofNat 0]
  | some "restart" => return [.ofNat 0]
  | some "setpause" => return [.ofNat 200]
  | some "setstepmul" => return [.ofNat 100]
  | _ => .error (.argument 1 ("invalid option '" ++ Utf8.lossy option ++ "'"))

def errorCall (args : List Datum) (caller : Caller) (wrong : Complaint → Heap → Step) (h : Heap) :
    Step :=
  match integerOr args 2 1 with
  | .error c => wrong c h
  | .ok level =>
    match arg args 1 with
    | .string s =>
      if 0 < level then raiseBytes (caller.level level.toInt.toNat) s h
      else .throw (.value (.string s)) h
    | d => .throw (.value d) h

def assert (args : List Datum) (caller : Caller) (wrong : Complaint → Heap → Step) (h : Heap) : Step :=
  match any args 1 with
  | .error c => wrong c h
  | .ok d =>
    if d.isTruthy then .finish args h
    else
      let message := if isGiven args 2 then arg args 2 else .text "assertion failed!"
      errorCall [message] caller wrong h

def describeAll : List Datum → (Heap → Step) → Heap → Step
  | [], k, h => k h
  | d :: rest, k, h => toText d none (fun _ h => describeAll rest k h) h

def pairs (args : List Datum) (next : Datum) (wrong : Complaint → Heap → Step) (h : Heap) : Step :=
  match any args 1 with
  | .error c => wrong c h
  | .ok d =>
    match h.metamethod d "__pairs" with
    | .nil => .finish [next, d, .nil] h
    | m => .call m [d] .nowhere h fun vs h => .finish [vs.getD 0 .nil, vs.getD 1 .nil, vs.getD 2 .nil] h

def ipairsStep (args : List Datum) (wrong : Complaint → Heap → Step) (h : Heap) : Step :=
  match integer args 2 with
  | .error c => wrong c h
  | .ok i =>
    let i := i + 1
    index (arg args 1) (.int i) .nowhere (fun v h =>
      .finish (if v.isNil then [.nil] else [.int i, v]) h) h

end ScriptHost.Lua.Library
