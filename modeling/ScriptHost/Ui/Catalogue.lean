import ScriptHost.Value

/-!
# The component catalogue

The catalogue is the closed list of components a user interface is built of.  Layout components take
children, but for the divider and the spacer; no other component does.
-/

set_option autoImplicit false

namespace ScriptHost

inductive ComponentGroup where
  | layout
  | display
  | input
  | data
  | feedback
deriving DecidableEq, Inhabited, Repr

def ComponentGroup.name : ComponentGroup → String
  | .layout => "layout"
  | .display => "display"
  | .input => "input"
  | .data => "data"
  | .feedback => "feedback"

structure Component where
  tag : String
  group : ComponentGroup
  description : String
  children : Bool
  props : List String
deriving DecidableEq, Inhabited, Repr

namespace Component

def container (tag description : String) (props : List String) : Component :=
  ⟨tag, .layout, description, true, props⟩

def leaf (group : ComponentGroup) (tag description : String) (props : List String) : Component :=
  ⟨tag, group, description, false, props⟩

def catalogue : List Component := [
  container "panel" "Titled container" ["title", "collapsible", "padding"],
  container "row" "Horizontal stack" ["gap", "align", "wrap"],
  container "column" "Vertical stack" ["gap", "align"],
  container "grid" "Fixed-column grid" ["columns", "gap"],
  container "stack" "Overlapping layers" ["align"],
  container "section" "Labelled group within a panel" ["title", "collapsed"],
  leaf .layout "divider" "Horizontal rule" ["label"],
  leaf .layout "spacer" "Flexible empty space" ["size"],
  container "tabs" "Tabbed pages; one child per tab" ["labels", "selected", "onChange"],
  container "scroll" "Scrollable region" ["height", "horizontal"],
  leaf .display "text" "Body text" ["value", "color", "size", "weight"],
  leaf .display "heading" "Section heading" ["value", "level"],
  leaf .display "image" "Image from an asset path" ["src", "width", "height"],
  leaf .display "icon" "Named icon" ["name", "size", "color"],
  leaf .display "badge" "Small status label" ["value", "color"],
  leaf .display "code" "Monospace block" ["value", "language"],
  leaf .input "button" "Clickable button" ["label", "variant", "disabled", "onClick"],
  leaf .input "input" "Single-line text field" ["value", "placeholder", "onChange"],
  leaf .input "checkbox" "Boolean toggle" ["label", "checked", "onChange"],
  leaf .input "slider" "Numeric range" ["value", "min", "max", "step", "onChange"],
  leaf .input "select" "Choice from options" ["value", "options", "onChange"],
  leaf .input "colorPicker" "Color chooser" ["value", "onChange"],
  leaf .data "table" "Rows and columns" ["columns", "rows", "onSelect"],
  leaf .data "list" "Item list" ["items", "selected", "onSelect"],
  leaf .data "keyValue" "Label/value pairs" ["entries"],
  leaf .feedback "alert" "Inline message" ["value", "level"],
  leaf .feedback "progress" "Progress bar" ["value", "max", "label"],
  leaf .feedback "spinner" "Busy indicator" ["label"]]

def find? (tag : String) : Option Component := catalogue.find? (·.tag == tag)

def tags : List String := catalogue.map (·.tag)

def toValue (c : Component) : Value :=
  .map [("children", .bool c.children), ("description", .string c.description),
    ("group", .string c.group.name), ("props", Value.strings c.props), ("tag", .string c.tag)]

end Component

end ScriptHost
