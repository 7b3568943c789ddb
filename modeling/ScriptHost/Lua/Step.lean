import ScriptHost.Lua.Heap
import ScriptHost.Lua.Operators

/-!
# Steps of a script

A `Step` is what a piece of a script does next, with everything that follows as a function of the
results: it ends its function, fails, calls, or begins another turn of a loop.  The operations of
scripts on data, metamethods included, are written here as functions into steps.
-/

set_option autoImplicit false

namespace ScriptHost.Lua

structure Place where
  chunk : ByteArray
  line : Nat
deriving Inhabited

structure Naming where
  kind : String
  name : ByteArray
deriving Inhabited

structure Spot where
  place : Option Place
  naming : Option Naming
deriving Inhabited

def Spot.nowhere : Spot := ⟨none, none⟩

def mark : Option Place → ByteArray
  | some p => p.chunk ++ (":" ++ toString p.line ++ ": ").toUTF8
  | none => ByteArray.empty

def note : Option Naming → ByteArray
  | some n => (" (" ++ n.kind ++ " '").toUTF8 ++ beforeZero n.name ++ "')".toUTF8
  | none => ByteArray.empty

inductive Thrown where
  | value (d : Datum)
  | memory
deriving DecidableEq, Inhabited

def Thrown.datum : Thrown → Datum
  | .value d => d
  | .memory => .text "not enough memory"

inductive Flow where
  | next (env : Env)
  | jump (label : String) (pending : Nat)

/-- What is gone through again: the turns of a loop, or what follows a label. -/
inductive Loop where
  | whileTrue (condition : Expr) (body : Block) (env : Env)
  | untilTrue (body : Block) (condition : Expr) (env : Env)
  -- `left` turns are left, the next one at `i`
  | countInt (name : String) (i : Int64) (left : Nat) (step : Int64) (body : Block) (env : Env)
  | countFloat (name : String) (x limit step : Binary64) (body : Block) (env : Env)
  | iterate (names : List String) (f state control : Datum) (body : Block) (env : Env) (line : Nat)
  -- what follows a label in its block, from another label on if one is sought
  | labelled (name : String) (rest : Block) (sought : Option String) (env : Env)

inductive Step where
  | finish (values : List Datum) (h : Heap)
  | throw (e : Thrown) (h : Heap)
  | call (f : Datum) (args : List Datum) (spot : Spot) (h : Heap) (k : List Datum → Heap → Step)
  | tail (f : Datum) (args : List Datum) (spot : Spot) (h : Heap)
  -- a call whose failure is a result: true and its values, or false and what was thrown, which goes
  -- through the handler if there is one
  | attempt (f : Datum) (args : List Datum) (handler : Option Datum) (h : Heap)
    (k : List Datum → Heap → Step)
  | again (l : Loop) (h : Heap) (k : Flow → Heap → Step)
  | enclose (d : Datum) (h : Heap) (k : Heap → Step)
  | leave (h : Heap) (k : Heap → Step)
  | spawn (thread : Nat) (f : Datum) (h : Heap) (k : Heap → Step)
  -- wakes a coroutine. The results are true and what it yields or returns, or false and what it
  -- throws
  | wake (thread : Nat) (args : List Datum) (h : Heap) (k : List Datum → Heap → Step)
  | yield (values : List Datum) (h : Heap) (k : List Datum → Heap → Step)
  | shut (thread : Nat) (h : Heap) (k : List Datum → Heap → Step)
  | pause (h : Heap) (k : Heap → Step)

instance : Inhabited Step := ⟨.finish [] default⟩

def raiseBytes (place : Option Place) (message : ByteArray) (h : Heap) : Step :=
  .throw (.value (.string (mark place ++ message))) h

def raise (place : Option Place) (message : String) (h : Heap) : Step :=
  raiseBytes place message.toUTF8 h

def refuse (operation : String) (d : Datum) (spot : Spot) (h : Heap) : Step :=
  raiseBytes spot.place
    (("attempt to " ++ operation ++ " a " ++ d.typeName ++ " value").toUTF8 ++ note spot.naming) h

def claim (size : Nat) (k : Heap → Step) (h : Heap) : Step :=
  match h.claim? size with
  | some h => k h
  | none => .throw .memory h

def build (s : ByteArray) (k : Datum → Heap → Step) (h : Heap) : Step :=
  claim (stringSize s.size) (k (.string s)) h

def callOne (f : Datum) (args : List Datum) (place : Option Place) (k : Datum → Heap → Step)
    (h : Heap) : Step :=
  .call f args ⟨place, none⟩ h fun vs h => k (vs.headD .nil) h

def metamethodSpot (event : String) (place : Option Place) : Spot :=
  ⟨place, place.map fun _ => ⟨"metamethod", event.toUTF8⟩⟩

def callEvent (event : String) (f : Datum) (args : List Datum) (place : Option Place)
    (k : Datum → Heap → Step) (h : Heap) : Step :=
  .call f args (metamethodSpot event place) h fun vs h => k (vs.headD .nil) h

def chainLimit : Nat := 2000

def indexChain : Nat → Datum → Datum → Spot → (Datum → Heap → Step) → Heap → Step
  | 0, _, _, spot, _, h => raise spot.place "'__index' chain too long; possibly a loop" h
  | fuel + 1, object, key, spot, k, h =>
    let follow (m : Datum) : Step :=
      match m with
      | .function _ => callEvent "index" m [object, key] spot.place k h
      | _ => indexChain fuel m key ⟨spot.place, none⟩ k h
    match object with
    | .table a =>
      let v := match key.key? with
        | some key => h.get a key
        | none => .nil
      if v.isNil then
        match h.metamethod object "__index" with
        | .nil => k .nil h
        | m => follow m
      else k v h
    | _ =>
      match h.metamethod object "__index" with
      | .nil => refuse "index" object spot h
      | m => follow m

def index (object key : Datum) (spot : Spot) (k : Datum → Heap → Step) (h : Heap) : Step :=
  indexChain chainLimit object key spot k h

def store (address : Nat) (key value : Datum) (k : Heap → Step) (h : Heap) : Step :=
  -- a key that was not in use takes an entry
  if value.isNil || !(h.get address key).isNil then k (h.set address key value)
  else claim entrySize (fun h => k (h.set address key value)) h

def rawSet (address : Nat) (key value : Datum) (place : Option Place) (k : Heap → Step) (h : Heap) :
    Step :=
  match key.key? with
  | some key => store address key value k h
  | none => raise place (if key.isNil then "table index is nil" else "table index is NaN") h

def setIndexChain : Nat → Datum → Datum → Datum → Spot → (Heap → Step) → Heap → Step
  | 0, _, _, _, spot, _, h => raise spot.place "'__newindex' chain too long; possibly a loop" h
  | fuel + 1, object, key, value, spot, k, h =>
    let follow (m : Datum) : Step :=
      match m with
      | .function _ =>
        .call m [object, key, value] (metamethodSpot "newindex" spot.place) h fun _ h => k h
      | _ => setIndexChain fuel m key value ⟨spot.place, none⟩ k h
    match object with
    | .table a =>
      let held := match key.key? with
        | some key => h.get a key
        | none => .nil
      if held.isNil then
        match h.metamethod object "__newindex" with
        | .nil => rawSet a key value spot.place k h
        | m => follow m
      else rawSet a key value spot.place k h
    | _ =>
      match h.metamethod object "__newindex" with
      | .nil => refuse "index" object spot h
      | m => follow m

def setIndex (object key value : Datum) (spot : Spot) (k : Heap → Step) (h : Heap) : Step :=
  setIndexChain chainLimit object key value spot k h

def binaryMetamethod (h : Heap) (a b : Datum) (event : String) : Datum :=
  -- strings have none of these
  match h.metamethod a event with
  | .nil => h.metamethod b event
  | m => m

def plainArithmetic (op : Arithmetic) (a b : Datum) : Option (Except String Number) :=
  if op.isBitwise then
    match a.toInt?, b.toInt? with
    | some m, some n => some (integerOp op m n)
    | _, _ => none
  else
    match a.number?, b.number? with
    | some m, some n => some (numberOp op m n)
    | _, _ => none

def numeralArithmetic (op : Arithmetic) (a b : Datum) : Option (Except String Number) :=
  match a.toNumber?, b.toNumber? with
  | some m, some n => some (numberOp op m n)
  | _, _ => none

def blame (operation : String) (a b : Datum) (na nb : Option Naming) (place : Option Place)
    (h : Heap) : Step :=
  if a.isNumber then refuse operation b ⟨place, nb⟩ h else refuse operation a ⟨place, na⟩ h

def refuseNumerals (event : String) (a b : Datum) (place : Option Place) (h : Heap) : Step :=
  raise place
    ("attempt to " ++ event ++ " a '" ++ a.typeName ++ "' with a '" ++ b.typeName ++ "'") h

def arithmetic (op : Arithmetic) (a b : Datum) (na nb : Option Naming) (place : Option Place)
    (k : Datum → Heap → Step) (h : Heap) : Step :=
  match plainArithmetic op a b with
  | some (.ok n) => k n.toDatum h
  | some (.error message) => raise place message h
  | none =>
    match binaryMetamethod h a b ("__" ++ op.event) with
    | .nil =>
      if op.isBitwise then
        if a.isNumber && b.isNumber then
          let blamed := if a.toInt?.isSome then nb else na
          raiseBytes place
            ("number".toUTF8 ++ note blamed ++ " has no integer representation".toUTF8) h
        else blame "perform bitwise operation on" a b na nb place h
      else if a.isString || b.isString then
        match numeralArithmetic op a b with
        | some (.ok n) => k n.toDatum h
        | some (.error message) => raise place message h
        | none => refuseNumerals op.event a b place h
      else blame "perform arithmetic on" a b na nb place h
    | m => callEvent op.event m [a, b] place k h

def negate (a : Datum) (spot : Spot) (k : Datum → Heap → Step) (h : Heap) : Step :=
  match a.number? with
  | some n => k n.negate.toDatum h
  | none =>
    match h.metamethod a "__unm" with
    | .nil =>
      match a with
      | .string _ =>
        match a.toNumber? with
        | some n => k n.negate.toDatum h
        | none => refuseNumerals "unm" a a spot.place h
      | _ => refuse "perform arithmetic on" a spot h
    | m => callEvent "unm" m [a, a] spot.place k h

def complement (a : Datum) (spot : Spot) (k : Datum → Heap → Step) (h : Heap) : Step :=
  match a.toInt? with
  | some n => k (.int (~~~n)) h
  | none =>
    match h.metamethod a "__bnot" with
    | .nil =>
      if a.isNumber then
        raiseBytes spot.place
          ("number".toUTF8 ++ note spot.naming ++ " has no integer representation".toUTF8) h
      else refuse "perform bitwise operation on" a spot h
    | m => callEvent "bnot" m [a, a] spot.place k h

def length (a : Datum) (spot : Spot) (k : Datum → Heap → Step) (h : Heap) : Step :=
  match a with
  | .string s => k (.ofNat s.size) h
  | _ =>
    match h.metamethod a "__len" with
    | .nil =>
      match a with
      | .table address => k (.ofNat (h.table address).border) h
      | _ => refuse "get length of" a spot h
    | m => callEvent "len" m [a] spot.place k h

def concatenate (a b : Datum) (na nb : Option Naming) (place : Option Place)
    (k : Datum → Heap → Step) (h : Heap) : Step :=
  match a.toBytes?, b.toBytes? with
  | some s, some t => build (s ++ t) k h
  | first, _ =>
    match binaryMetamethod h a b "__concat" with
    | .nil =>
      if first.isSome then refuse "concatenate" b ⟨place, nb⟩ h
      else refuse "concatenate" a ⟨place, na⟩ h
    | m => callEvent "concat" m [a, b] place k h

def equal (a b : Datum) (place : Option Place) (k : Bool → Heap → Step) (h : Heap) : Step :=
  -- only two different tables are asked for a metamethod
  match a, b with
  | .table x, .table y =>
    if x = y then k true h
    else match binaryMetamethod h a b "__eq" with
      | .nil => k false h
      | m => callEvent "eq" m [a, b] place (fun v h => k v.isTruthy h) h
  | _, _ => k (a.equals b) h

def less (orEqual : Bool) (a b : Datum) (place : Option Place) (k : Bool → Heap → Step) (h : Heap) :
    Step :=
  match less? orEqual a b with
  | some r => k r h
  | none =>
    let event := if orEqual then "le" else "lt"
    match binaryMetamethod h a b ("__" ++ event) with
    | .nil =>
      let s := a.typeName
      let t := b.typeName
      raise place (if s = t then "attempt to compare two " ++ s ++ " values"
        else "attempt to compare " ++ s ++ " with " ++ t) h
    | m => callEvent event m [a, b] place (fun v h => k v.isTruthy h) h

def compare (op : Comparison) (a b : Datum) (place : Option Place) (k : Bool → Heap → Step)
    (h : Heap) : Step :=
  match op with
  | .eq => equal a b place k h
  | .ne => equal a b place (fun r h => k (!r) h) h
  | .lt => less false a b place k h
  | .le => less true a b place k h
  | .gt => less false b a place k h
  | .ge => less true b a place k h

def addressText (kind : String) (n : Nat) : ByteArray :=
  let digits := Nat.toDigits 16 (0x55550000 + 32 * n)
  (kind ++ ": 0x" ++ String.ofList (List.replicate (14 - digits.length) '0' ++ digits)).toUTF8

def Failure.text (f : Failure) : String :=
  match f with
  | .raised e => e.display
  | .through cause => Failure.text cause

def plainText (d : Datum) : ByteArray :=
  match d with
  | .nil => "nil".toUTF8
  | .bool b => (if b then "true" else "false").toUTF8
  | .int n => (Number.int n).text.toUTF8
  | .float x => (Number.float x).text.toUTF8
  | .string s => s
  | .table n => addressText "table" n
  | .function n => addressText "function" n
  | .thread n => addressText "thread" n
  | .userdata n => addressText "file" n
  | .failure _ f => (f.text ++ "\nstack traceback:\n\t[C]: in ?").toUTF8

def toText (d : Datum) (place : Option Place) (k : ByteArray → Heap → Step) (h : Heap) : Step :=
  let plain (_ : Unit) : Step := k (plainText d) h
  match d with
  | .table _ =>
    match h.metamethod d "__tostring" with
    | .nil => plain ()
    | m => callOne m [d] none (fun v h =>
        match v.toBytes? with
        | some s => k s h
        | none => raise place "'__tostring' must return a string" h) h
  | _ => plain ()

end ScriptHost.Lua
