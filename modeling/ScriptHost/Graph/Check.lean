import ScriptHost.Graph.Registry

/-!
# Connecting and validating

An edge fits a graph when both its nodes are there, its handles are ports of theirs, an output and an
input, and the port types may be connected; a data input takes one edge.  `Graph.connect` checks an
edge against the edges there are, `Graph.validate` every edge against those before it.
-/

set_option autoImplicit false

namespace ScriptHost

namespace Graph

def nodeOrFault (g : Graph) (id : String) : Except GraphFault Node :=
  match g.node? id with
  | some n => .ok n
  | none => .error (.nodeNotFound id)

def portOf (r : Registry) (n : Node) (dir : Direction) (port : String) : Except GraphFault Port :=
  match r.portsOf n dir with
  | .error e => .error e
  | .ok ports =>
    match Port.find? ports port with
    | some p => .ok p
    | none => .error (.portNotFound n.id port)

def checkEndpoints (g : Graph) (r : Registry) (e : Edge) : Except GraphFault Unit :=
  match g.nodeOrFault e.source with
  | .error fault => .error fault
  | .ok source =>
    match g.nodeOrFault e.target with
    | .error fault => .error fault
    | .ok target =>
      match portOf r source .output e.sourceHandle with
      | .error fault => .error fault
      | .ok output =>
        match portOf r target .input e.targetHandle with
        | .error fault => .error fault
        | .ok input =>
          if output.type.feeds input.type then .ok ()
          else .error (.incompatiblePorts output.type input.type)

def checkSingleInput (g : Graph) (r : Registry) (e : Edge) (existing : List Edge) :
    Except GraphFault Unit :=
  match g.nodeOrFault e.target with
  | .error fault => .error fault
  | .ok target =>
    match r.portsOf target .input with
    | .error fault => .error fault
    | .ok ports =>
      let carriesData := ports.any fun p => p.id == e.targetHandle && p.type.isData
      let taken := existing.any fun x => x.target == e.target && x.targetHandle == e.targetHandle
      if carriesData && taken then .error (.inputAlreadyConnected e.target e.targetHandle)
      else .ok ()

def checkEdge (g : Graph) (r : Registry) (e : Edge) (existing : List Edge) :
    Except GraphFault Unit :=
  match g.checkEndpoints r e with
  | .error fault => .error fault
  | .ok () => g.checkSingleInput r e existing

def connect (g : Graph) (r : Registry) (e : Edge) : Except GraphFault Graph :=
  if (g.edge? e.id).isSome then .error (.duplicateEdge e.id)
  else match g.checkEdge r e g.edges with
    | .error fault => .error fault
    | .ok () => .ok { g with edges := g.edges ++ [e] }

def edgeFaults (g : Graph) (r : Registry) : List Edge → List Edge → List GraphFault
  -- each edge is checked against those before it
  | _, [] => []
  | earlier, e :: rest =>
    match g.checkEdge r e earlier with
    | .error fault => fault :: edgeFaults g r (earlier ++ [e]) rest
    | .ok () => edgeFaults g r (earlier ++ [e]) rest

def typeFaults (g : Graph) (r : Registry) : List GraphFault :=
  g.nodes.filterMap fun n =>
    if (r.find? n.typeId).isSome then none else some (.unknownNodeType n.typeId)

def validate (g : Graph) (r : Registry) : List GraphFault :=
  g.typeFaults r ++ g.edgeFaults r [] g.edges

end Graph

end ScriptHost
