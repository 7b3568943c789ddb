import ScriptHost.Text.Quoted
import ScriptHost.Json
import ScriptHost.Json.Printer

/-!
# Decoding JSON into records

A `Decoder` turns a JSON value into a typed one or says why it cannot.  Records are described field
by field by a `Fields` reader.  An object is read in the order of its keys, so the first bad member in
that order is the one reported, then the first absent required field in the order of declaration;
unknown members are passed over.  An array stands for a record too, position by position.
-/

set_option autoImplicit false

namespace ScriptHost

inductive DecodeError where
  | wrongKind (found : Json) (wanted : String)
  | badValue (found : Json) (wanted : String)
  | missingField (name : String)
  | tooShort (index : Nat) (record : String) (fields : Nat)
  | tooLong (length : Nat)
  | unknownVariant (name : String) (known : List String)
deriving Inhabited, Repr

namespace Json

def describe : Json → String
  | .null => "null"
  | .bool b => "boolean `" ++ (if b then "true" else "false") ++ "`"
  | .int n => "integer `" ++ toString n ++ "`"
  | .float x => "floating point `" ++ x.serialized ++ "`"
  | .str s => "string " ++ Quoted.text s
  | .arr _ => "sequence"
  | .obj _ => "map"

end Json

def DecodeError.message : DecodeError → String
  | .wrongKind found wanted => "invalid type: " ++ found.describe ++ ", expected " ++ wanted
  | .badValue found wanted => "invalid value: " ++ found.describe ++ ", expected " ++ wanted
  | .missingField name => "missing field `" ++ name ++ "`"
  | .tooShort index record fields =>
    "invalid length " ++ toString index ++ ", expected struct " ++ record ++ " with "
      ++ toString fields ++ " elements"
  | .tooLong length => "invalid length " ++ toString length ++ ", expected fewer elements in array"
  | .unknownVariant name known =>
    "unknown variant `" ++ name ++ "`, expected one of "
      ++ ", ".intercalate (known.map fun k => "`" ++ k ++ "`")

abbrev Decoder (α : Type) := Json → Except DecodeError α

namespace Decoder

variable {α β : Type}

def string : Decoder String
  | .str s => .ok s
  | j => .error (.wrongKind j "a string")

def bool : Decoder Bool
  | .bool b => .ok b
  | j => .error (.wrongKind j "a boolean")

def json : Decoder Json := .ok

def natural64 : Decoder UInt64
  | .int n =>
    if n < 0 then .error (.badValue (.int n) "u64") else .ok (UInt64.ofNat n.toNat)
  | j => .error (.wrongKind j "u64")

def single : Decoder Binary32
  | .int n => .ok (.ofInt n)
  | .float x => .ok (.ofBinary64 x)
  | j => .error (.wrongKind j "f32")

def listItems (item : Decoder α) : List Json → Except DecodeError (List α)
  | [] => .ok []
  | j :: rest =>
    match item j with
    | .error e => .error e
    | .ok a =>
      match listItems item rest with
      | .error e => .error e
      | .ok as => .ok (a :: as)

def list (item : Decoder α) : Decoder (List α)
  | .arr items => listItems item items
  | j => .error (.wrongKind j "a sequence")

def optional (item : Decoder α) : Decoder (Option α)
  | .null => .ok none
  | j => (item j).map some

def dictEntries (item : Decoder α) : List (String × Json) → Except DecodeError (Dict α)
  | [] => .ok []
  | (k, j) :: rest =>
    match item j with
    | .error e => .error e
    | .ok a =>
      match dictEntries item rest with
      | .error e => .error e
      | .ok as => .ok ((k, a) :: as)

def dict (item : Decoder α) : Decoder (Dict α)
  | .obj members => dictEntries item members
  | j => .error (.wrongKind j "a map")

def variant (known : List (String × α)) : Decoder α
  -- one of a closed set of names, alone or as the only member of an object with a null in it
  | .str name => named name
  | .obj [(name, content)] =>
    match named name with
    | .error e => .error e
    | .ok a => if content.isNull then .ok a else .error (.wrongKind content "unit")
  | .obj members => .error (.badValue (.obj members) "map with a single key")
  | j => .error (.wrongKind j "string or map")
where
  named (name : String) : Except DecodeError α :=
    match known.find? fun e => e.1 == name with
    | some e => .ok e.2
    | none => .error (.unknownVariant name (known.map (·.1)))

end Decoder

/-- A reader of the fields of a record.  Its state holds what has been read of each field; members of
other names leave it as it is. -/
structure Fields (α : Type) : Type 1 where
  State : Type
  names : List String
  start : State
  accept : String → Json → State → Except DecodeError State
  finish : State → Except String α

namespace Fields

variable {α β : Type}

def required (name : String) (decode : Decoder α) : Fields α where
  State := Option α
  names := [name]
  start := none
  accept key j s := if key = name then (decode j).map some else .ok s
  finish s := match s with
    | some a => .ok a
    | none => .error name

def optional (name : String) (decode : Decoder α) (absent : α) : Fields α where
  State := α
  names := [name]
  start := absent
  accept key j s := if key = name then decode j else .ok s
  finish := .ok

def map (f : α → β) (r : Fields α) : Fields β where
  State := r.State
  names := r.names
  start := r.start
  accept := r.accept
  finish s := (r.finish s).map f

def seq (f : Fields (α → β)) (r : Fields α) : Fields β where
  State := f.State × r.State
  names := f.names ++ r.names
  start := (f.start, r.start)
  accept key j s :=
    match f.accept key j s.1 with
    | .error e => .error e
    | .ok s₁ =>
      match r.accept key j s.2 with
      | .error e => .error e
      | .ok s₂ => .ok (s₁, s₂)
  finish s :=
    match f.finish s.1 with
    | .error name => .error name
    | .ok g => (r.finish s.2).map g

def acceptAll (r : Fields α) : List (String × Json) → r.State → Except DecodeError r.State
  | [], s => .ok s
  | (key, j) :: rest, s =>
    match r.accept key j s with
    | .error e => .error e
    | .ok s => r.acceptAll rest s

def decode (record : String) (r : Fields α) : Decoder α
  | .obj members =>
    match r.acceptAll members r.start with
    | .error e => .error e
    | .ok s =>
      match r.finish s with
      | .error name => .error (.missingField name)
      | .ok a => .ok a
  | .arr items =>
    match r.acceptAll (r.names.zip items) r.start with
    | .error e => .error e
    | .ok s =>
      match r.finish s with
      | .error name => .error (.tooShort (r.names.idxOf name) record r.names.length)
      | .ok a => if items.length > r.names.length then .error (.tooLong items.length) else .ok a
  | j => .error (.wrongKind j ("struct " ++ record))

end Fields

end ScriptHost
