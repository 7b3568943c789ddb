import ScriptHost.Json.Decode

/-!
# Saved panels

A panel is a named script.  Its id is made of its name's slug and the time it was saved at.  A
`PanelStore` keeps the last panel saved under each id and lists them from the oldest on.
-/

set_option autoImplicit false

namespace ScriptHost

structure Panel where
  id : String
  name : String
  code : String
  createdAt : UInt64
deriving DecidableEq, Inhabited, Repr

namespace Panel

def slugStep (out : List Char) (c : Char) : List Char :=
  -- what is no letter or digit puts a dash after a word
  if c.isAlphanum then c.toLower :: out
  else match out with
    | [] => []
    | '-' :: _ => out
    | _ => '-' :: out

def slug (name : String) : String :=
  match (name.toList.foldl slugStep []).dropWhile (· == '-') with
  | [] => "untitled"
  | out => String.ofList out.reverse

def idOf (name : String) (createdAt : UInt64) : String :=
  "panel-" ++ slug name ++ "-" ++ toString createdAt.toNat

def make (name code : String) (createdAt : UInt64) : Panel :=
  ⟨idOf name createdAt, name, code, createdAt⟩

def fields : Fields Panel :=
  (Fields.required "id" .string).map Panel.mk
    |>.seq (.required "name" .string)
    |>.seq (.required "code" .string)
    |>.seq (.required "createdAt" .natural64)

def decode : Decoder Panel := fields.decode "SavedPanel"

def toJson (p : Panel) : Json :=
  .obj [("id", .str p.id), ("name", .str p.name), ("code", .str p.code),
    ("createdAt", .int p.createdAt.toNat)]

def before (p q : Panel) : Bool :=
  p.createdAt < q.createdAt || (p.createdAt == q.createdAt && p.id ≤ q.id)

end Panel

structure PanelStore where
  panels : Dict Panel
deriving Inhabited, Repr

namespace PanelStore

def empty : PanelStore := ⟨[]⟩

def save (s : PanelStore) (p : Panel) : PanelStore := ⟨Dict.insert s.panels p.id p⟩

def get? (s : PanelStore) (id : String) : Option Panel := Dict.find? s.panels id

def delete (s : PanelStore) (id : String) : Bool × PanelStore :=
  (Dict.contains s.panels id, ⟨Dict.erase s.panels id⟩)

def list (s : PanelStore) : List Panel := (Dict.values s.panels).mergeSort Panel.before

end PanelStore

end ScriptHost
