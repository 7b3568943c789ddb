import ScriptHost.Value.Text
import ScriptHost.ScriptError
import ScriptHost.Json.Decode

/-!
# User-interface trees

A `UiNode` is a component's tag, its props and its children; no children and an empty list of them are
told apart.  As a value it is a map that carries a mark (`UiNode.toValue`), and `UiNode.ofValue` reads
marked maps back.
-/

set_option autoImplicit false

namespace ScriptHost

inductive UiNode where
  | mk (tag : String) (props : List (String × Value)) (children : Option (List UiNode))
deriving Inhabited

namespace UiNode

def tag : UiNode → String
  | .mk tag _ _ => tag

def props : UiNode → Dict Value
  | .mk _ props _ => props

def children? : UiNode → Option (List UiNode)
  | .mk _ _ children => children

def children (n : UiNode) : List UiNode := n.children?.getD []

def make (tag : String) : UiNode := .mk tag [] none

def withProp (n : UiNode) (key : String) (value : Value) : UiNode :=
  .mk n.tag (Dict.insert n.props key value) n.children?

def withChild (n : UiNode) (child : UiNode) : UiNode := .mk n.tag n.props (some (n.children ++ [child]))

def prop? (n : UiNode) (key : String) : Option Value := Dict.find? n.props key

def mark : String := "__ui"

def isMarked (v : Value) : Bool :=
  match v.get? mark with
  | some (.bool true) => true
  | _ => false

mutual

def toValue : UiNode → Value
  | .mk tag props children =>
    .map (("__ui", .bool true) :: (childrenMember children
      ++ [("props", .map props), ("type", .string tag)]))

def childrenMember : Option (List UiNode) → List (String × Value)
  | none => []
  | some items => [("children", .array (itemValues items))]

def itemValues : List UiNode → List Value
  | [] => []
  | n :: rest => n.toValue :: itemValues rest

end

def tagOf (v : Value) : Except ScriptError String :=
  match v.get? "type" with
  | some (.string tag) => .ok tag
  | _ => .error (.marshal "UI node without a type tag")

def propsOf (tag : String) (v : Value) : Except ScriptError (Dict Value) :=
  -- nil and the empty table are no props
  match v.get? "props" with
  | none => .ok []
  | some .nil => .ok []
  | some (.map props) => .ok props
  | some other =>
    if other.isEmptyTable then .ok []
    else .error (.marshal ("props of '" ++ tag ++ "' must be a table, got " ++ other.typeName))

def notAList (tag : String) (v : Value) : ScriptError :=
  .marshal ("children of '" ++ tag ++ "' must be a list, got " ++ v.typeName)

mutual

def ofValue : Value → Except ScriptError (Option UiNode)
  | .map members =>
    if isMarked (.map members) then
      match tagOf (.map members) with
      | .error e => .error e
      | .ok tag =>
        match propsOf tag (.map members) with
        | .error e => .error e
        | .ok props =>
          match childrenIn tag members with
          | .error e => .error e
          | .ok children => .ok (some (.mk tag props children))
    else .ok none
  | .nil => .ok none
  | .bool _ => .ok none
  | .int _ => .ok none
  | .float _ => .ok none
  | .string _ => .ok none
  | .array _ => .ok none
  | .function _ => .ok none
  | .callable _ => .ok none

def childrenIn (tag : String) : List (String × Value) → Except ScriptError (Option (List UiNode))
  | [] => .ok none
  | (key, v) :: rest => if key = "children" then childrenOf tag v else childrenIn tag rest

def childrenOf (tag : String) : Value → Except ScriptError (Option (List UiNode))
  | .nil => .ok none
  | .array items =>
    if items.isEmpty then .ok none
    else match nodesOf tag items with
      | .error e => .error e
      | .ok nodes => .ok (some nodes)
  | .map members =>
    if members.isEmpty then .ok none else .error (notAList tag (.map members))
  | .bool b => .error (notAList tag (.bool b))
  | .int n => .error (notAList tag (.int n))
  | .float x => .error (notAList tag (.float x))
  | .string s => .error (notAList tag (.string s))
  | .function f => .error (notAList tag (.function f))
  | .callable h => .error (notAList tag (.callable h))

def nodesOf (tag : String) : List Value → Except ScriptError (List UiNode)
  | [] => .ok []
  | v :: rest =>
    match ofValue v with
    | .error e => .error e
    | .ok none =>
      .error (.marshal ("child of '" ++ tag ++ "' is a " ++ v.typeName ++ ", not a UI node"))
    | .ok (some n) =>
      match nodesOf tag rest with
      | .error e => .error e
      | .ok nodes => .ok (n :: nodes)

end

mutual

def toJson : UiNode → Json
  | .mk tag props children =>
    .obj (childrenJson children ++ [("props", (Value.map props).toJson), ("type", .str tag)])

def childrenJson : Option (List UiNode) → List (String × Json)
  | none => []
  | some items => [("children", .arr (itemsJson items))]

def itemsJson : List UiNode → List Json
  | [] => []
  | n :: rest => n.toJson :: itemsJson rest

end

mutual

def serialize? : UiNode → Option Json
  | .mk tag props children =>
    match (Value.map props).serialize?, serializeChildren? children with
    | some p, some c => some (.obj (("type", .str tag) :: ("props", p) :: c))
    | _, _ => none

def serializeChildren? : Option (List UiNode) → Option (List (String × Json))
  | none => some []
  | some items => (serializeItems? items).map fun js => [("children", .arr js)]

def serializeItems? : List UiNode → Option (List Json)
  | [] => some []
  | n :: rest =>
    match n.serialize?, serializeItems? rest with
    | some j, some js => some (j :: js)
    | _, _ => none

end

mutual

def beq : UiNode → UiNode → Bool
  | .mk tag props children, .mk tag' props' children' =>
    tag == tag' && Value.membersBeq props props' && childrenBeq children children'

def childrenBeq : Option (List UiNode) → Option (List UiNode) → Bool
  | none, none => true
  | some a, some b => itemsBeq a b
  | _, _ => false

def itemsBeq : List UiNode → List UiNode → Bool
  | [], [] => true
  | m :: ms, n :: ns => m.beq n && itemsBeq ms ns
  | _, _ => false

end

mutual

def find? (wanted : String) : UiNode → Option UiNode
  -- the node itself before its children, each child's tree before the next
  | .mk tag props children =>
    if tag = wanted then some (.mk tag props children) else findInChildren? wanted children

def findInChildren? (wanted : String) : Option (List UiNode) → Option UiNode
  | none => none
  | some items => findInItems? wanted items

def findInItems? (wanted : String) : List UiNode → Option UiNode
  | [] => none
  | n :: rest =>
    match n.find? wanted with
    | some found => some found
    | none => findInItems? wanted rest

end

mutual

def walk : UiNode → List UiNode
  | .mk tag props children => .mk tag props children :: walkChildren children

def walkChildren : Option (List UiNode) → List UiNode
  | none => []
  | some items => walkItems items

def walkItems : List UiNode → List UiNode
  | [] => []
  | n :: rest => n.walk ++ walkItems rest

end

def handles (n : UiNode) : List Handle := n.walk.flatMap fun m => Value.memberHandles m.props

def decodeWithin : Nat → Decoder UiNode
  | 0, j => .error (.wrongKind j "struct UiNode")
  | depth + 1, j =>
    let fields : Fields UiNode :=
      (Fields.required "type" .string).map UiNode.mk
        |>.seq (.optional "props" (.dict fun j => .ok (Value.ofJson j)) [])
        |>.seq (.optional "children" (.optional (.list (decodeWithin depth))) none)
    fields.decode "UiNode" j

def decode : Decoder UiNode := fun j => decodeWithin (j.depth + 1) j

end UiNode

end ScriptHost
