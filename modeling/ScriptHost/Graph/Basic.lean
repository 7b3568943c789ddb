import ScriptHost.Graph.Fault
import ScriptHost.Json.Form

/-!
# Graphs

A graph is a list of placed nodes and a list of directed edges between their ports, both in the order
they were added.  The edits here keep node ids distinct and leave no edge without its nodes; connecting
needs the registry and is found with the checks.
-/

set_option autoImplicit false

namespace ScriptHost

structure Position where
  x : Binary32
  y : Binary32
deriving DecidableEq, Inhabited, Repr

namespace Position

def origin : Position := ⟨.zero, .zero⟩

def lower (p q : Position) : Position :=
  ⟨if p.x.blt q.x then p.x else q.x, if p.y.blt q.y then p.y else q.y⟩

def upper (p q : Position) : Position :=
  ⟨if q.x.blt p.x then p.x else q.x, if q.y.blt p.y then p.y else q.y⟩

def fields : Fields Position :=
  (Fields.required "x" .single).map Position.mk |>.seq (.required "y" .single)

def decode : Decoder Position := fields.decode "Position"

def write {α : Type} (f : Json.Form α) (p : Position) : α :=
  f.record [("x", f.single p.x), ("y", f.single p.y)]

end Position

structure Node where
  id : String
  typeId : String
  position : Position
  data : Json
deriving Inhabited, Repr

namespace Node

def make (id typeId : String) (position : Position) : Node := ⟨id, typeId, position, .null⟩

def fields : Fields Node :=
  (Fields.required "id" .string).map Node.mk
    |>.seq (.required "typeId" .string)
    |>.seq (.optional "position" Position.decode .origin)
    |>.seq (.optional "data" .json .null)

def decode : Decoder Node := fields.decode "NodeInstance"

def write {α : Type} (f : Json.Form α) (n : Node) : α :=
  f.record [("id", f.value (.str n.id)), ("typeId", f.value (.str n.typeId)),
    ("position", n.position.write f), ("data", f.value n.data)]

end Node

structure Edge where
  id : String
  source : String
  sourceHandle : String
  target : String
  targetHandle : String
deriving DecidableEq, Inhabited, Repr

namespace Edge

def between (source sourceHandle target targetHandle : String) : Edge where
  id := "e-" ++ source ++ "-" ++ sourceHandle ++ "-" ++ target ++ "-" ++ targetHandle
  source := source
  sourceHandle := sourceHandle
  target := target
  targetHandle := targetHandle

def touches (e : Edge) (node : String) : Bool := e.source == node || e.target == node

def fields : Fields Edge :=
  (Fields.required "id" .string).map Edge.mk
    |>.seq (.required "source" .string)
    |>.seq (.required "sourceHandle" .string)
    |>.seq (.required "target" .string)
    |>.seq (.required "targetHandle" .string)

def decode : Decoder Edge := fields.decode "EdgeInstance"

def toJson (e : Edge) : Json :=
  .obj [("id", .str e.id), ("source", .str e.source), ("sourceHandle", .str e.sourceHandle),
    ("target", .str e.target), ("targetHandle", .str e.targetHandle)]

end Edge

structure Graph where
  id : String
  name : String
  nodes : List Node
  edges : List Edge
  metadata : Option Json
deriving Inhabited, Repr

namespace Graph

def empty (id name : String) : Graph := ⟨id, name, [], [], none⟩

def node? (g : Graph) (id : String) : Option Node := g.nodes.find? (·.id == id)

def edge? (g : Graph) (id : String) : Option Edge := g.edges.find? (·.id == id)

def addNode (g : Graph) (n : Node) : Except GraphFault Graph :=
  if (g.node? n.id).isSome then .error (.duplicateNode n.id)
  else .ok { g with nodes := g.nodes ++ [n] }

def removeNode (g : Graph) (id : String) : Option (Node × Graph) :=
  (g.node? id).map fun n =>
    (n, { g with nodes := g.nodes.eraseP (·.id == id), edges := g.edges.filter (!·.touches id) })

def modifyFirst (id : String) (change : Node → Node) : List Node → List Node
  | [] => []
  | n :: rest => if n.id == id then change n :: rest else n :: modifyFirst id change rest

def setData (g : Graph) (id : String) (data : Json) : Option Graph :=
  (g.node? id).map fun _ =>
    { g with nodes := modifyFirst id (fun n => { n with data := data }) g.nodes }

def setType (g : Graph) (id : String) (typeId : String) : Option Graph :=
  (g.node? id).map fun _ =>
    { g with nodes := modifyFirst id (fun n => { n with typeId := typeId }) g.nodes }

def disconnect (g : Graph) (id : String) : Option (Edge × Graph) :=
  (g.edge? id).map fun e => (e, { g with edges := g.edges.eraseP (·.id == id) })

def edgesFrom (g : Graph) (node : String) : List Edge := g.edges.filter (·.source == node)

def edgesTo (g : Graph) (node : String) : List Edge := g.edges.filter (·.target == node)

def bounds (g : Graph) : Option (Position × Position) :=
  match g.nodes.map (·.position) with
  | [] => none
  | p :: rest => some (rest.foldl (fun b q => (b.1.lower q, b.2.upper q)) (p, p))

def fields : Fields Graph :=
  (Fields.required "id" .string).map Graph.mk
    |>.seq (.required "name" .string)
    |>.seq (.optional "nodes" (.list Node.decode) [])
    |>.seq (.optional "edges" (.list Edge.decode) [])
    |>.seq (.optional "metadata" (.optional .json) none)

def decode : Decoder Graph := fields.decode "NodeGraph"

def write {α : Type} (f : Json.Form α) (g : Graph) : α :=
  f.record ([("id", f.value (.str g.id)), ("name", f.value (.str g.name)),
    ("nodes", f.list (g.nodes.map (·.write f))),
    ("edges", f.value (.arr (g.edges.map (·.toJson))))]
    ++ (g.metadata.map fun m => ("metadata", f.value m)).toList)

end Graph

end ScriptHost
