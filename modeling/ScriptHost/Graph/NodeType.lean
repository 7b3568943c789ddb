import ScriptHost.Graph.Fault

/-!
# Node types

A node type is an entry of the catalogue: what a kind of node is called, where it is listed, and its
ports.  Types that were registered later than the built-in ones carry `custom = some true`.
-/

set_option autoImplicit false

namespace ScriptHost

inductive Category where
  | event
  | action
  | condition
  | data
  | flow
  | custom
deriving DecidableEq, Inhabited, Repr

namespace Category

def all : List Category := [.event, .action, .condition, .data, .flow, .custom]

def name : Category → String
  | .event => "event"
  | .action => "action"
  | .condition => "condition"
  | .data => "data"
  | .flow => "flow"
  | .custom => "custom"

def color : Category → String
  | .event => "#e74c3c"
  | .action => "#3498db"
  | .condition => "#f39c12"
  | .data => "#2ecc71"
  | .flow => "#9b59b6"
  | .custom => "#1abc9c"

def ofName? (name : String) : Option Category := all.find? fun c => c.name == name

def unknownMessage (name : String) : String := "unknown node category: " ++ name

def decode : Decoder Category := .variant (all.map fun c => (c.name, c))

def toJson (c : Category) : Json := .str c.name

end Category

structure NodeType where
  id : String
  name : String
  category : Category
  description : String
  icon : String
  color : String
  inputs : List Port
  outputs : List Port
  behavior : Option String
  custom : Option Bool
deriving DecidableEq, Inhabited, Repr

namespace NodeType

def make (id name : String) (category : Category) : NodeType where
  id := id
  name := name
  category := category
  description := ""
  icon := ""
  color := category.color
  inputs := []
  outputs := []
  behavior := none
  custom := none

def described (t : NodeType) (icon description : String) : NodeType :=
  { t with icon := icon, description := description }

def input (t : NodeType) (p : Port) : NodeType := { t with inputs := t.inputs ++ [p] }

def output (t : NodeType) (p : Port) : NodeType := { t with outputs := t.outputs ++ [p] }

def isCustom (t : NodeType) : Bool := t.custom.getD false

def ports (t : NodeType) : Direction → List Port
  | .input => t.inputs
  | .output => t.outputs

def inputPort? (t : NodeType) (id : String) : Option Port := Port.find? t.inputs id

def outputPort? (t : NodeType) (id : String) : Option Port := Port.find? t.outputs id

def checkPorts (t : NodeType) : Except GraphFault Unit :=
  Port.checkDistinct t.id (t.inputs ++ t.outputs)

def fields : Fields NodeType :=
  (Fields.required "id" .string).map NodeType.mk
    |>.seq (.required "name" .string)
    |>.seq (.required "category" Category.decode)
    |>.seq (.optional "description" .string "")
    |>.seq (.optional "icon" .string "")
    |>.seq (.optional "color" .string "")
    |>.seq (.optional "inputs" (.list Port.decode) [])
    |>.seq (.optional "outputs" (.list Port.decode) [])
    |>.seq (.optional "behavior" (.optional .string) none)
    |>.seq (.optional "isCustom" (.optional .bool) none)

def decode : Decoder NodeType := fields.decode "NodeTypeDefinition"

def toJson (t : NodeType) : Json :=
  .record [("id", some (.str t.id)), ("name", some (.str t.name)),
    ("category", some t.category.toJson), ("description", some (.str t.description)),
    ("icon", some (.str t.icon)), ("color", some (.str t.color)),
    ("inputs", some (Port.listJson t.inputs)), ("outputs", some (Port.listJson t.outputs)),
    ("behavior", t.behavior.map .str), ("isCustom", t.custom.map .bool)]

end NodeType

end ScriptHost
