import ScriptHost.Graph.Palette
import ScriptHost.Graph.ScriptNode

/-!
# The registry of node types

A registry finds a node type by its id and lists all of them in the order they were registered.
Built-in types can be read but neither replaced nor removed; every other type is marked as custom when
it is registered.
-/

set_option autoImplicit false

namespace ScriptHost

structure Registry where
  types : Dict NodeType
  order : List String
deriving Inhabited, Repr

namespace Registry

def empty : Registry := ⟨[], []⟩

def put (r : Registry) (t : NodeType) : Registry where
  -- an id that is there already keeps its place
  types := Dict.insert r.types t.id t
  order := if Dict.contains r.types t.id then r.order else r.order ++ [t.id]

def seeded : Registry := palette.foldl put empty

def find? (r : Registry) (id : String) : Option NodeType := Dict.find? r.types id

def all (r : Registry) : List NodeType := r.order.filterMap r.find?

def ofCategory (r : Registry) (c : Category) : List NodeType := r.all.filter (·.category == c)

def size (r : Registry) : Nat := r.types.length

def isEmpty (r : Registry) : Bool := r.types.isEmpty

def isBuiltin (r : Registry) (id : String) : Bool :=
  match r.find? id with
  | some t => !t.isCustom
  | none => false

def register (r : Registry) (t : NodeType) : Except GraphFault Registry :=
  if r.isBuiltin t.id then .error (.protectedNodeType t.id)
  else match t.checkPorts with
    | .error e => .error e
    | .ok () => .ok (r.put { t with custom := some true })

def unregister (r : Registry) (id : String) : Bool × Registry :=
  match r.find? id with
  | some t =>
    if t.isCustom then
      (true, { types := Dict.erase r.types id, order := r.order.filter (· != id) })
    else (false, r)
  | none => (false, r)

def teardown (r : Registry) : Registry :=
  let types := r.types.filter fun e => !e.2.isCustom
  { types := types, order := r.order.filter (Dict.contains types) }

def portsOf (r : Registry) (n : Node) (dir : Direction) : Except GraphFault (List Port) :=
  -- only a script node adds ports by its data, behind those of its type
  match r.find? n.typeId with
  | none => .error (.unknownNodeType n.typeId)
  | some t =>
    if t.id == scriptTypeId then
      match ScriptNode.ofNode n with
      | .error e => .error e
      | .ok none => .ok (t.ports dir)
      | .ok (some d) =>
        match dir with
        | .input => .ok (d.inputsOver t.inputs)
        | .output => .ok (d.outputsOver t.outputs)
    else .ok (t.ports dir)

end Registry

end ScriptHost
