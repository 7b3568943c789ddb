import ScriptHost.Graph.Port

/-!
# What can go wrong with a graph

Every refusal of the registry, of a graph edit or of a script node's invocation is a `GraphFault`.
-/

set_option autoImplicit false

namespace ScriptHost

inductive GraphFault where
  | protectedNodeType (id : String)
  | unknownNodeType (id : String)
  | duplicatePort (owner port : String)
  | duplicateNode (id : String)
  | duplicateEdge (id : String)
  | nodeNotFound (id : String)
  | portNotFound (node port : String)
  | incompatiblePorts (source target : PortType)
  | inputAlreadyConnected (node port : String)
  | invalidNodeData (node message : String)
  | unknownInput (port : String)
  | missingInput (port : String)
  | undeclaredSignal (signal : String)
deriving DecidableEq, Inhabited, Repr

def GraphFault.name : GraphFault → String
  | .protectedNodeType _ => "ProtectedNodeType"
  | .unknownNodeType _ => "UnknownNodeType"
  | .duplicatePort _ _ => "DuplicatePort"
  | .duplicateNode _ => "DuplicateNode"
  | .duplicateEdge _ => "DuplicateEdge"
  | .nodeNotFound _ => "NodeNotFound"
  | .portNotFound _ _ => "PortNotFound"
  | .incompatiblePorts _ _ => "IncompatiblePorts"
  | .inputAlreadyConnected _ _ => "InputAlreadyConnected"
  | .invalidNodeData _ _ => "InvalidNodeData"
  | .unknownInput _ => "UnknownInput"
  | .missingInput _ => "MissingInput"
  | .undeclaredSignal _ => "UndeclaredSignal"

def GraphFault.message : GraphFault → String
  | .protectedNodeType id => "Node type is built in and cannot be replaced: " ++ id
  | .unknownNodeType id => "Unknown node type: " ++ id
  | .duplicatePort owner port => "Duplicate port '" ++ port ++ "' on " ++ owner
  | .duplicateNode id => "Duplicate node ID: " ++ id
  | .duplicateEdge id => "Duplicate edge ID: " ++ id
  | .nodeNotFound id => "Node not found: " ++ id
  | .portNotFound node port => "Port '" ++ port ++ "' not found on node " ++ node
  | .incompatiblePorts source target =>
    "Cannot connect " ++ source.name ++ " output to " ++ target.name ++ " input"
  | .inputAlreadyConnected node port =>
    "Input '" ++ port ++ "' on node " ++ node ++ " is already connected"
  | .invalidNodeData node message => "Invalid data on node " ++ node ++ ": " ++ message
  | .unknownInput port => "Unknown input: " ++ port
  | .missingInput port => "Missing required input: " ++ port
  | .undeclaredSignal signal => "Signal not declared in emitSignals: " ++ signal

def Port.checkDistinct (owner : String) (ports : List Port) : Except GraphFault Unit :=
  match Port.firstRepeat? ports with
  | some p => .error (.duplicatePort owner p.id)
  | none => .ok ()

end ScriptHost
