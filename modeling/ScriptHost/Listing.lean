import ScriptHost.Graph.Registry
import ScriptHost.Ui.Catalogue

/-!
# Listings

One line for each component or node type, in columns.
-/

set_option autoImplicit false

namespace ScriptHost

def padColumn (width : Nat) (s : String) : String :=
  s ++ String.ofList (List.replicate (width - s.length) ' ')

def componentListing : List String :=
  Component.catalogue.map fun c =>
    padColumn 12 c.tag ++ " " ++ padColumn 9 c.group.name ++ " " ++ c.description

def nodeListing (r : Registry) (category : Option Category) : List String :=
  let types := match category with
    | some c => r.ofCategory c
    | none => r.all
  types.map fun t => padColumn 16 t.id ++ " " ++ padColumn 10 t.category.name ++ " " ++ t.name

end ScriptHost
