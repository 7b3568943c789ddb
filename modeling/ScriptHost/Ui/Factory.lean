import ScriptHost.Ui.Catalogue
import ScriptHost.Ui.Node

/-!
# Component factories

A factory is called with props and children.  A scalar in the first place becomes the prop `value`, a
node or a list of nodes there are the children; a single node as children is a list of one.
Components that take no children refuse them.
-/

set_option autoImplicit false

namespace ScriptHost

namespace Factory

def refusal (tag message : String) : ScriptError := .runtime ("ui." ++ tag ++ ": " ++ message)

def split (tag : String) (first second : Value) : Except ScriptError (Dict Value × Value) :=
  if UiNode.isMarked first then .ok ([], first)
  else match first with
    | .nil => .ok ([], second)
    | .map props => .ok (props, second)
    | .array items =>
      if items.isEmpty then .ok ([], second)
      else if items.all UiNode.isMarked then .ok ([], .array items)
      else .error (refusal tag "first argument must be props or child nodes")
    | .function _ => .error (refusal tag "a function cannot be used as props")
    | .callable _ => .error (refusal tag "a function cannot be used as props")
    | scalar => .ok ([("value", scalar)], second)

def childList (tag : String) (children : Value) : Except ScriptError (List Value) :=
  if UiNode.isMarked children then .ok [children]
  else match children with
    | .nil => .ok []
    | .array items =>
      match items.findIdx? fun v => !UiNode.isMarked v with
      | some i =>
        .error (refusal tag ("child " ++ toString (i + 1) ++ " is a "
          ++ (items[i]?.getD .nil).typeName ++ ", not a UI node"))
      | none => .ok items
    | other =>
      if other.isEmptyTable then .ok []
      else .error (refusal tag ("children must be a node or a list of nodes, got "
        ++ other.typeName))

def node (tag : String) (props : Dict Value) (children : List Value) : Value :=
  -- an empty list of children is left out
  .map ([("__ui", .bool true)]
    ++ (if children.isEmpty then [] else [("children", .array children)])
    ++ [("props", .map props), ("type", .string tag)])

def build (tag : String) (args : List Value) : Except ScriptError Value :=
  match split tag (args[0]?.getD .nil) (args[1]?.getD .nil) with
  | .error e => .error e
  | .ok (props, rest) =>
    match childList tag rest with
    | .error e => .error e
    | .ok children =>
      let leaf := match Component.find? tag with
        | some c => !c.children
        | none => false
      if !children.isEmpty && leaf then .error (refusal tag "this component takes no children")
      else .ok (node tag props children)

end Factory

end ScriptHost
