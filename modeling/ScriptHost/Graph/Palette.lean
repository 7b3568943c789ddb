import ScriptHost.Graph.NodeType

/-!
# The built-in node types

`palette` lists the node types every registry is seeded with, in the order they are shown.
-/

set_option autoImplicit false

namespace ScriptHost

def scriptTypeId : String := "script"

namespace Palette

def flowIn : Port := .flow "in" "In"

def flowOut : Port := .flow "out" "Out"

def event (id name icon description : String) : NodeType :=
  ((NodeType.make id name .event).described icon description).output flowOut

def action (id name icon description : String) : NodeType :=
  (((NodeType.make id name .action).described icon description).input flowIn).output flowOut

def data (id name icon description : String) : NodeType :=
  (NodeType.make id name .data).described icon description

def condition (id name icon description : String) : NodeType :=
  (NodeType.make id name .condition).described icon description

def flow (id name icon description : String) : NodeType :=
  ((NodeType.make id name .flow).described icon description).input flowIn

def events : List NodeType := [
  event "on-start" "On Start" "play" "Fires once when the scene starts",
  event "on-update" "On Update" "refresh-cw" "Fires every frame"
    |>.output (.make "deltaTime" "Delta Time" .number),
  event "on-collision" "On Collision" "zap" "Fires when the entity collides"
    |>.output (.make "other" "Other" .entity),
  event "on-key-press" "On Key Press" "keyboard" "Fires when a key is pressed"
    |>.output (.make "key" "Key" .string),
  event "on-signal" "On Signal" "radio" "Fires when a named signal is emitted"
    |>.output (.make "signal" "Signal" .string)
    |>.output (.make "data" "Data" .any)]

def actions : List NodeType := [
  action "set-position" "Set Position" "move" "Moves an entity to a position"
    |>.input (.make "entity" "Entity" .entity)
    |>.input (Port.make "position" "Position" .position).require,
  action "move-by" "Move By" "navigation" "Offsets an entity's position"
    |>.input (.make "entity" "Entity" .entity)
    |>.input (Port.make "offset" "Offset" .position).require,
  action "spawn-entity" "Spawn Entity" "plus-square" "Creates an entity from a prefab"
    |>.input (Port.make "prefab" "Prefab" .string).require
    |>.input (.make "position" "Position" .position)
    |>.output (.make "entity" "Entity" .entity),
  action "destroy-entity" "Destroy Entity" "trash" "Removes an entity from the scene"
    |>.input (.make "entity" "Entity" .entity),
  action "play-sound" "Play Sound" "volume-2" "Plays a sound asset"
    |>.input (Port.make "sound" "Sound" .string).require
    |>.input (.make "volume" "Volume" .number),
  action "log" "Log" "terminal" "Writes a message to the console"
    |>.input (.make "message" "Message" .any),
  action "emit-signal" "Emit Signal" "send" "Broadcasts a named signal"
    |>.input (Port.make "signal" "Signal" .string).require
    |>.input (.make "data" "Data" .any)]

def conditions : List NodeType := [
  condition "branch" "Branch" "git-branch" "Routes flow by a boolean condition"
    |>.input flowIn
    |>.input (Port.make "condition" "Condition" .boolean).require
    |>.output (.flow "true" "True")
    |>.output (.flow "false" "False"),
  condition "compare" "Compare" "divide" "Compares two values"
    |>.input (.make "a" "A" .any)
    |>.input (.make "b" "B" .any)
    |>.input (.make "operator" "Operator" .string)
    |>.output (.make "result" "Result" .boolean),
  condition "has-tag" "Has Tag" "tag" "Checks whether an entity carries a tag"
    |>.input (.make "entity" "Entity" .entity)
    |>.input (Port.make "tag" "Tag" .string).require
    |>.output (.make "result" "Result" .boolean)]

def sources : List NodeType := [
  data "number" "Number" "hash" "A constant number"
    |>.output (.make "value" "Value" .number),
  data "string" "String" "type" "A constant string"
    |>.output (.make "value" "Value" .string),
  data "boolean" "Boolean" "toggle-left" "A constant boolean"
    |>.output (.make "value" "Value" .boolean),
  data "get-position" "Get Position" "crosshair" "Reads an entity's position"
    |>.input (.make "entity" "Entity" .entity)
    |>.output (.make "position" "Position" .position),
  data "get-variable" "Get Variable" "box" "Reads a graph variable"
    |>.input (Port.make "name" "Name" .string).require
    |>.output (.make "value" "Value" .any),
  data "set-variable" "Set Variable" "edit" "Writes a graph variable"
    |>.input flowIn
    |>.input (Port.make "name" "Name" .string).require
    |>.input (.make "value" "Value" .any)
    |>.output flowOut,
  data "math" "Math" "percent" "Applies an arithmetic operator"
    |>.input (.make "a" "A" .number)
    |>.input (.make "b" "B" .number)
    |>.input (.make "operator" "Operator" .string)
    |>.output (.make "result" "Result" .number)]

def flows : List NodeType := [
  flow "sequence" "Sequence" "list" "Runs its outputs in order"
    |>.output (.flow "then0" "Then 0")
    |>.output (.flow "then1" "Then 1"),
  flow "delay" "Delay" "clock" "Continues after a number of seconds"
    |>.input (.make "seconds" "Seconds" .number)
    |>.output flowOut,
  flow "loop" "Loop" "repeat" "Runs its body a fixed number of times"
    |>.input (.make "count" "Count" .number)
    |>.output (.flow "body" "Body")
    |>.output (.make "index" "Index" .number)
    |>.output (.flow "done" "Done")]

def script : NodeType :=
  (NodeType.make scriptTypeId "Script" .custom).described "code"
      "Runs user-authored Lua with per-node ports and signals"
    |>.input flowIn
    |>.output flowOut

end Palette

open Palette in
def palette : List NodeType := events ++ actions ++ conditions ++ sources ++ flows ++ [script]

end ScriptHost
