import ScriptHost.Graph.Check
import ScriptHost.Hub
import ScriptHost.Json.Access
import ScriptHost.Main
import ScriptHost.Panel
import ScriptHost.Text.Hex
import ScriptHost.Proofs.Crossing.Keys
import ScriptHost.Proofs.Crossing.Sequence
import ScriptHost.Proofs.Crossing.Issue
import ScriptHost.Proofs.Crossing.Unfolding
import ScriptHost.Proofs.Crossing.NormalForm
import ScriptHost.Proofs.Value.Normal
import ScriptHost.Proofs.Dict
import ScriptHost.Proofs.Lua.Table
import ScriptHost.Proofs.Bridge.Globals
import ScriptHost.Proofs.Crossing.Handles
import ScriptHost.Proofs.Bridge.Steady
import ScriptHost.Proofs.Session
import ScriptHost.Proofs.Bridge.Sessions
import ScriptHost.Proofs.Ui.Tree
import ScriptHost.Proofs.Bridge.Handles
import ScriptHost.Proofs.Hub.World
import ScriptHost.Proofs.Hub.Holdings
import ScriptHost.Proofs.Hub.Resolve
import ScriptHost.Proofs.Graph.Checks
import ScriptHost.Proofs.Graph.Edits
import ScriptHost.Proofs.Registry.Lineup
import ScriptHost.Proofs.Registry.Builtins
import ScriptHost.Proofs.Graph.Incremental
import ScriptHost.Proofs.Graph.Integrity
import ScriptHost.Proofs.Crossing.Return
import ScriptHost.Proofs.Bridge.Install
import ScriptHost.Proofs.Bridge.Operations
import ScriptHost.Proofs.Bridge.Lifecycle
import ScriptHost.Proofs.Bridge.Reentry
import ScriptHost.Proofs.Bridge.Opening
import ScriptHost.Proofs.Bridge.Conservation
import ScriptHost.Proofs.Registry.Ports
import ScriptHost.Proofs.Ui.Built
import ScriptHost.Proofs.Bridge.Turns
import ScriptHost.Proofs.Crossing.Received
import ScriptHost.Proofs.Ui.Props
import ScriptHost.Proofs.Lua.Keeping
import ScriptHost.Proofs.Lua.Turning
import ScriptHost.Proofs.Bridge.Functions
import ScriptHost.Proofs.Bridge.Account
import ScriptHost.Proofs.Bridge.Accounted
import ScriptHost.Proofs.Bridge.Provenance
import ScriptHost.Proofs.NodeRunner
import ScriptHost.Proofs.Json.Records
import ScriptHost.Proofs.Json.Codecs
import ScriptHost.Proofs.Graph.Saved
import ScriptHost.Proofs.Bridge.Course
import ScriptHost.Proofs.Bridge.Coursed
import ScriptHost.Proofs.Crossing.Stands
import ScriptHost.Proofs.Bridge.State
import ScriptHost.Proofs.Bridge.Replay
import ScriptHost.Proofs.Bridge.StateTable
import ScriptHost.Proofs.Graph.EdgeIds
import ScriptHost.Proofs.Crossing.Refusal
import ScriptHost.Proofs.Bridge.Refusal
import ScriptHost.Proofs.Bridge.Escape
import ScriptHost.Proofs.Decimal.Cell
import ScriptHost.Proofs.Decimal.Spacing
import ScriptHost.Proofs.Decimal.Reading
import ScriptHost.Proofs.Decimal.Display
import ScriptHost.Proofs.Crossing.KeyTexts
import ScriptHost.Proofs.Crossing.Entries
import ScriptHost.Proofs.Invocation
import ScriptHost.Proofs.Graph.WellFormed
import ScriptHost.Proofs.Graph.Removal
import ScriptHost.Proofs.Value.JsonForms
import ScriptHost.Proofs.Value.Rendered
import ScriptHost.Proofs.Ui.TableForm
import ScriptHost.Proofs.Ui.Children
import ScriptHost.Proofs.Ui.JsonForms
import ScriptHost.Proofs.Template
import ScriptHost.Proofs.Tables
import ScriptHost.Proofs.Decimal.Normal
import ScriptHost.Proofs.Decimal.Rounded
import ScriptHost.Proofs.Graph.ScriptPorts
import ScriptHost.Proofs.Panel.Slug
import ScriptHost.Proofs.Decimal.General
import ScriptHost.Proofs.Value.Scalars
import ScriptHost.Proofs.Panel.Store
import ScriptHost.Proofs.ScriptLog
import ScriptHost.Proofs.Config.Rewriting
import ScriptHost.Proofs.Ui.Walk
import ScriptHost.Proofs.Crossing.Filling
import ScriptHost.Proofs.Crossing.Numerals
