import ScriptHost.Json.Decode

/-!
# Ports

A port is a named connection point of a node.  Flow ports sequence execution, every other type
carries data.  `PortType.feeds` says which outputs may be connected to which inputs, and
`Port.firstRepeat?` finds the first port that repeats an earlier port's id.
-/

set_option autoImplicit false

namespace ScriptHost

inductive PortType where
  | flow
  | string
  | number
  | boolean
  | any
  | entity
  | position
deriving DecidableEq, Inhabited, Repr

namespace PortType

def all : List PortType := [.flow, .string, .number, .boolean, .any, .entity, .position]

def name : PortType → String
  | .flow => "flow"
  | .string => "string"
  | .number => "number"
  | .boolean => "boolean"
  | .any => "any"
  | .entity => "entity"
  | .position => "position"

def isFlow (t : PortType) : Bool := t == .flow

def isData (t : PortType) : Bool := !t.isFlow

def feeds : PortType → PortType → Bool
  -- flow goes to flow only; `any` meets every data type on either side
  | .flow, t => t == .flow
  | s, .flow => s == .flow
  | .any, _ => true
  | _, .any => true
  | s, t => s == t

def decode : Decoder PortType := .variant (all.map fun t => (t.name, t))

def toJson (t : PortType) : Json := .str t.name

end PortType

inductive Direction where
  | input
  | output
deriving DecidableEq, Repr

structure Port where
  id : String
  label : String
  type : PortType
  required : Option Bool
deriving DecidableEq, Inhabited, Repr

namespace Port

def make (id label : String) (type : PortType) : Port := ⟨id, label, type, none⟩

def flow (id label : String) : Port := make id label .flow

def require (p : Port) : Port := { p with required := some true }

def isRequired (p : Port) : Bool := p.required.getD false

def displayLabel (p : Port) : String := if p.label.isEmpty then p.id else p.label

def firstRepeatAfter : List String → List Port → Option Port
  | _, [] => none
  | seen, p :: rest =>
    if p.id ∈ seen then some p else firstRepeatAfter (p.id :: seen) rest

def firstRepeat? (ports : List Port) : Option Port := firstRepeatAfter [] ports

def merge (base custom : List Port) : List Port :=
  -- a custom port that reuses an earlier id is left out
  custom.foldl (fun ports p => if ports.any (·.id == p.id) then ports else ports ++ [p]) base

def find? (ports : List Port) (id : String) : Option Port := List.find? (·.id == id) ports

def fields : Fields Port :=
  (Fields.required "id" .string).map Port.mk
    |>.seq (.optional "label" .string "")
    |>.seq (.required "type" PortType.decode)
    |>.seq (.optional "required" (.optional .bool) none)

def decode : Decoder Port := fields.decode "NodePortDefinition"

def toJson (p : Port) : Json :=
  .record [("id", some (.str p.id)), ("label", some (.str p.label)),
    ("type", some p.type.toJson), ("required", p.required.map .bool)]

def listJson (ports : List Port) : Json := .arr (ports.map toJson)

end Port

end ScriptHost
