import ScriptHost.Binary

/-!
# KDL documents

A document is a list of nodes.  A node has a name, entries in order, each an argument or a named
property, and perhaps a block of child nodes.  Type annotations, comments and whatever is struck out
with a slashdash are not kept.
-/

set_option autoImplicit false

namespace ScriptHost.Kdl

inductive Value where
  | string (s : String)
  | integer (n : Int)
  | float (x : Binary64)
  | bool (b : Bool)
  | null
deriving DecidableEq, Inhabited, Repr

structure Entry where
  name : Option String
  value : Value
deriving DecidableEq, Inhabited, Repr

inductive Node where
  | mk (name : String) (entries : List Entry) (children : Option (List Node))
deriving Inhabited

abbrev Document := List Node

namespace Node

def name : Node → String
  | .mk name _ _ => name

def entries : Node → List Entry
  | .mk _ entries _ => entries

def children? : Node → Option (List Node)
  | .mk _ _ children => children

def argument? (n : Node) : Option Value := (n.entries.find? (·.name.isNone)).map (·.value)

end Node

end ScriptHost.Kdl
