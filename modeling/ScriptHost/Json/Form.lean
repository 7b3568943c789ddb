import ScriptHost.Json.Printer

/-!
# The two written forms of a record

A record is written either as a JSON value or as text.  The two differ in single-precision numbers
only: the value holds the double with the same value, the text the digits that read back in single
precision.  A record that holds such numbers is described once, over a `Form`.
-/

set_option autoImplicit false

namespace ScriptHost

structure Json.Form (α : Type) where
  value : Json → α
  single : Binary32 → α
  list : List α → α
  record : List (String × α) → α

namespace Json

def ofSingle (x : Binary32) : Json := .ofBinary x.toBinary64

def Form.tree : Form Json where
  value := id
  single := ofSingle
  list := .arr
  record := .obj

def Form.text : Form String where
  value := compact
  single x := if x.isFinite then x.serialized else "null"
  list items := "[" ++ ",".intercalate items ++ "]"
  record members :=
    "\x7b" ++ ",".intercalate (members.map fun m => quote m.1 ++ ":" ++ m.2) ++ "\x7d"

end Json

end ScriptHost
