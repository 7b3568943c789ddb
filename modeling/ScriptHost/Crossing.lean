import ScriptHost.Lua.Heap
import ScriptHost.Text.Utf8
import ScriptHost.Decimal.Layout

/-!
# Crossing between host and script

`Crossing.inward` makes a datum of a host value: lists and maps become new tables, a map key that is
the decimal text of a 64-bit integer becomes an integer key, and a handle becomes the function that is
pinned under it.  `Crossing.outward` makes a host value of a datum: a table whose keys are exactly the
integers from one to its size becomes a list, any other a map, and every function that is met takes the
next slot.  A table inside itself, a thread and the like do not cross.
-/

set_option autoImplicit false

namespace ScriptHost

structure Pin where
  slot : Nat
  function : Lua.Datum
  holders : Nat
deriving Inhabited

namespace Crossing

open Lua (Datum Heap Table entrySize functionSize stringSize tableSize)

def integerKey? (key : String) : Option Int64 :=
  let (negative, digits) := match key.toList with
    | '-' :: rest => (true, rest)
    | cs => (false, cs)
  if digits.isEmpty || !digits.all Json.isDigit then none
  else
    let n : Int := Json.natOfDigits 10 digits
    let i := if negative then -n else n
    if toString i = key then int64? i else none

def tableKey (key : String) : Datum :=
  match integerKey? key with
  | some i => .int i
  | none => .text key

def notText (f : Utf8Fault) : ScriptError :=
  .marshal ("error converting Lua string to &str (" ++ f.message ++ ")")

def textOf (s : ByteArray) : Except ScriptError String :=
  match Utf8.decode s with
  | .ok t => .ok t
  | .error f => .error (notText f)

def mapKey : Datum → Except ScriptError String
  | .string s => textOf s
  | .int n => .ok (toString n.toInt)
  | .float x => .ok x.displayText
  | .bool b => .ok (if b then "true" else "false")
  | d => .error (.marshal
      ("table keys of type " ++ d.hostTypeName ++ " cannot be represented on the host"))

def foreignHandle : ScriptError :=
  .marshal "function handle belongs to a closed interpreter session"

def releasedHandle (slot : Nat) : ScriptError :=
  .marshal ("function handle " ++ toString slot ++ " was released")

def resolve (session : SessionId) (pins : List Pin) (handle : Handle) : Except ScriptError Datum :=
  if handle.session = session then
    match pins.find? (·.slot == handle.slot) with
    | some pin => .ok pin.function
    | none => .error (releasedHandle handle.slot)
  else .error foreignHandle

def claim (size : Nat) (h : Heap) : Except ScriptError Heap :=
  match h.claim? size with
  | some h => .ok h
  | none => .error .outOfMemory

def keySize (key : String) : Nat :=
  match integerKey? key with
  | some _ => 0
  | none => stringSize key.utf8ByteSize

mutual

def inward (session : SessionId) (pins : List Pin) : Value → Heap → Except ScriptError (Datum × Heap)
  | .nil, h => .ok (.nil, h)
  | .bool b, h => .ok (.bool b, h)
  | .int n, h => .ok (.int n, h)
  | .float x, h => .ok (.float x, h)
  | .string s, h =>
    match claim (stringSize s.utf8ByteSize) h with
    | .error e => .error e
    | .ok h => .ok (.text s, h)
  | .array items, h =>
    match claim (tableSize + entrySize * items.length) h with
    | .error e => .error e
    | .ok h =>
      match inwardItems session pins (.sized items.length 0) 1 items h with
      | .error e => .error e
      | .ok (t, h) =>
        let (a, h) := h.allocate t
        .ok (.table a, h)
  | .map members, h =>
    match claim (tableSize + entrySize * members.length) h with
    | .error e => .error e
    | .ok h =>
      match inwardMembers session pins (.sized 0 members.length) members h with
      | .error e => .error e
      | .ok (t, h) =>
        let (a, h) := h.allocate t
        .ok (.table a, h)
  | .function f, h =>
    match claim functionSize h with
    | .error e => .error e
    | .ok h =>
      let (a, h) := h.addRoutine (.host f)
      .ok (.function a, h)
  | .callable handle, h =>
    match resolve session pins handle with
    | .error e => .error e
    | .ok d => .ok (d, h)

def inwardItems (session : SessionId) (pins : List Pin) (t : Table) (i : Nat) :
    List Value → Heap → Except ScriptError (Table × Heap)
  | [], h => .ok (t, h)
  | v :: rest, h =>
    match inward session pins v h with
    | .error e => .error e
    | .ok (d, h) => inwardItems session pins (t.setInt i d) (i + 1) rest h

def inwardMembers (session : SessionId) (pins : List Pin) (t : Table) :
    List (String × Value) → Heap → Except ScriptError (Table × Heap)
  | [], h => .ok (t, h)
  | (k, v) :: rest, h =>
    match inward session pins v h with
    | .error e => .error e
    | .ok (d, h) =>
      match claim (keySize k) h with
      | .error e => .error e
      | .ok h => inwardMembers session pins (t.set (tableKey k) d) rest h

end

def inwardAll (session : SessionId) (pins : List Pin) :
    List Value → Heap → Except ScriptError (List Datum × Heap)
  | [], h => .ok ([], h)
  | v :: rest, h =>
    match inward session pins v h with
    | .error e => .error e
    | .ok (d, h) =>
      match inwardAll session pins rest h with
      | .error e => .error e
      | .ok (ds, h) => .ok (d :: ds, h)

structure Issue where
  session : SessionId
  next : Nat
  functions : List (Nat × Datum)

def Issue.add (s : Issue) (f : Datum) : Handle × Issue :=
  (⟨s.session, s.next⟩, { s with next := s.next + 1, functions := (s.next, f) :: s.functions })

def sequenceLength? (keys : List Datum) : Option Nat :=
  -- only if the keys are exactly the integers from one to their number
  let indices := keys.filterMap Table.index?
  if indices.length = keys.length ∧ indices.foldl max 0 = keys.length then some keys.length else none

def place (size : Nat) (entries : List (Datum × Value)) : List Value :=
  (entries.foldl (fun (items : Array Value) e =>
    match Table.index? e.1 with
    | some i => items.setIfInBounds (i - 1) e.2
    | none => items) (Array.replicate size .nil)).toList

def cyclic : ScriptError := .marshal "cyclic table cannot cross the interpreter boundary"

abbrev Conversion (α β : Type) := α → Issue → Except ScriptError β × Issue

def outwardItems (convert : Conversion Datum Value) :
    Conversion (List (Datum × Datum)) (List (Datum × Value))
  | [], s => (.ok [], s)
  | (k, d) :: rest, s =>
    match convert d s with
    | (.error e, s) => (.error e, s)
    | (.ok v, s) =>
      match outwardItems convert rest s with
      | (.error e, s) => (.error e, s)
      | (.ok entries, s) => (.ok ((k, v) :: entries), s)

def outwardMembers (convert : Conversion Datum Value) :
    Conversion (List (Datum × Datum)) (List (String × Value))
  | [], s => (.ok [], s)
  | (k, d) :: rest, s =>
    match mapKey k with
    | .error e => (.error e, s)
    | .ok key =>
      match convert d s with
      | (.error e, s) => (.error e, s)
      | (.ok v, s) =>
        match outwardMembers convert rest s with
        | (.error e, s) => (.error e, s)
        | (.ok members, s) => (.ok ((key, v) :: members), s)

def outwardTable (convert : Conversion Datum Value) (pairs : List (Datum × Datum)) (s : Issue) :
    Except ScriptError Value × Issue :=
  match sequenceLength? (pairs.map (·.1)) with
  | some size =>
    match outwardItems convert pairs s with
    | (.ok entries, s) => (.ok (.array (place size entries)), s)
    | (.error e, s) => (.error e, s)
  | none =>
    match outwardMembers convert pairs s with
    | (.ok members, s) => (.ok (.map (Dict.ofList members)), s)
    | (.error e, s) => (.error e, s)

def outwardWithin (h : Heap) : Nat → List Nat → Conversion Datum Value
  -- `path` holds the tables around the datum, and the first number bounds how many more there can
  -- be
  | _, _, .nil, s => (.ok .nil, s)
  | _, _, .bool b, s => (.ok (.bool b), s)
  | _, _, .int n, s => (.ok (.int n), s)
  | _, _, .float x, s => (.ok (.float x), s)
  | _, _, .string t, s => ((textOf t).map .string, s)
  | 0, _, .table _, s => (.error cyclic, s)
  | fuel + 1, path, .table a, s =>
    if path.contains a then (.error cyclic, s)
    else outwardTable (outwardWithin h fuel (a :: path)) (h.table a).pairs s
  | _, _, .function a, s =>
    let (handle, s) := s.add (.function a)
    (.ok (.callable handle), s)
  | _, _, d, s =>
    (.error (.marshal ("Lua " ++ d.hostTypeName ++ " values cannot be represented on the host")), s)

def outward (h : Heap) (d : Datum) (s : Issue) : Except ScriptError Value × Issue :=
  -- a path of more tables than there are would meet one twice
  outwardWithin h (h.tables.size + 1) [] d s

end Crossing

end ScriptHost
