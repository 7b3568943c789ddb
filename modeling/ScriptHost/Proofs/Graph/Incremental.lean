import ScriptHost.Proofs.Graph.Edits

/-!
# Checking one edge and checking all

`Graph.connect` checks the new edge against all the edges there are, `Graph.validate` goes through the
edges and checks each against those before it.  On a graph with the new edge at its end the second
check ends with the first one, whatever faults the graph has already.
-/

set_option autoImplicit false

namespace ScriptHost.Graph

def appended (g : Graph) (e : Edge) : Graph := { g with edges := g.edges ++ [e] }

def faultOf : Except GraphFault Unit → List GraphFault
  | .error fault => [fault]
  | .ok () => []

@[simp] theorem edgeFaults_cons (g : Graph) (r : Registry) (earlier : List Edge) (e : Edge) (rest : List Edge) :
    g.edgeFaults r earlier (e :: rest) =
      faultOf (g.checkEdge r e earlier) ++ g.edgeFaults r (earlier ++ [e]) rest := by
  rw [edgeFaults]
  cases g.checkEdge r e earlier <;> rfl

theorem edgeFaults_append (g : Graph) (r : Registry) (earlier first second : List Edge) :
    g.edgeFaults r earlier (first ++ second) =
      g.edgeFaults r earlier first ++ g.edgeFaults r (earlier ++ first) second := by
  induction first generalizing earlier with
  | nil => rw [List.append_nil]; rfl
  | cons e rest ih =>
    rw [List.cons_append, edgeFaults_cons, ih, edgeFaults_cons, List.append_assoc, List.append_assoc,
      List.singleton_append]

/-- A check looks at the nodes of the graph and at the edges it is given, not at those of the graph. -/
theorem edgeFaults_appended (g : Graph) (r : Registry) (added : Edge) (earlier edges : List Edge) :
    (g.appended added).edgeFaults r earlier edges = g.edgeFaults r earlier edges := by
  induction edges generalizing earlier with
  | nil => rfl
  | cons e rest ih =>
    rw [edgeFaults_cons, edgeFaults_cons, ih]
    rfl

theorem validate_appended (g : Graph) (r : Registry) (e : Edge) :
    (g.appended e).validate r = g.validate r ++ faultOf (g.checkEdge r e g.edges) := by
  have hedges : (g.appended e).edgeFaults r [] (g.edges ++ [e]) =
      g.edgeFaults r [] g.edges ++ faultOf (g.checkEdge r e g.edges) := by
    rw [edgeFaults_appended, edgeFaults_append, edgeFaults_cons, List.nil_append, edgeFaults,
      List.append_nil]
  show g.typeFaults r ++ (g.appended e).edgeFaults r [] (g.edges ++ [e]) = _
  rw [hedges, ← List.append_assoc]
  rfl

theorem edge_used (g : Graph) (id : String) :
    (g.edge? id).isSome = true ↔ id ∈ g.edges.map (·.id) := by
  rw [edge?, List.find?_isSome, List.mem_map]
  simp only [beq_iff_eq]

theorem connect_duplicate {g : Graph} {e : Edge} (h : e.id ∈ g.edges.map (·.id)) (r : Registry) :
    g.connect r e = .error (.duplicateEdge e.id) := if_pos ((edge_used g e.id).mpr h)

theorem connect_new {g : Graph} {e : Edge} (h : e.id ∉ g.edges.map (·.id)) (r : Registry) :
    g.connect r e = (g.checkEdge r e g.edges).map fun _ => g.appended e := by
  rw [connect, if_neg fun hused => h ((edge_used g e.id).mp hused)]
  cases g.checkEdge r e g.edges <;> rfl

/-- The three ends of a connection. -/
theorem connect_ends (g : Graph) (r : Registry) (e : Edge) :
    e.id ∈ g.edges.map (·.id) ∧ g.connect r e = .error (.duplicateEdge e.id) ∨
      e.id ∉ g.edges.map (·.id) ∧
        ((∃ fault, g.checkEdge r e g.edges = .error fault ∧ g.connect r e = .error fault) ∨
          g.checkEdge r e g.edges = .ok () ∧ g.connect r e = .ok (g.appended e)) := by
  by_cases h : e.id ∈ g.edges.map (·.id)
  · exact .inl ⟨h, connect_duplicate h r⟩
  · refine .inr ⟨h, ?_⟩
    rw [connect_new h]
    cases g.checkEdge r e g.edges with
    | error fault => exact .inl ⟨fault, rfl, rfl⟩
    | ok u => exact .inr ⟨rfl, rfl⟩

theorem edit_connect {g : Graph} {r : Registry} {e : Edge} :
    edit ⟨g, r⟩ (.connect e) = ⟨(g.connect r e).toOption.getD g, r⟩ := rfl

/-- Whatever the graph is like: an edge of a new id is connected exactly when the graph with it has the
faults it had, and refused with a fault exactly when that one comes to them at the end. -/
theorem connect_validates (g : Graph) (r : Registry) (e : Edge) :
    (e.id ∉ g.edges.map (·.id) →
      (g.connect r e = .ok (g.appended e) ↔ (g.appended e).validate r = g.validate r) ∧
      ∀ fault, g.connect r e = .error fault ↔
        (g.appended e).validate r = g.validate r ++ [fault]) ∧
    (e.id ∈ g.edges.map (·.id) → g.connect r e = .error (.duplicateEdge e.id)) ∧
    ((∃ fault, g.connect r e = .error fault ∧ edit ⟨g, r⟩ (.connect e) = ⟨g, r⟩) ∨
      g.connect r e = .ok (g.appended e) ∧ edit ⟨g, r⟩ (.connect e) = ⟨g.appended e, r⟩) := by
  refine ⟨fun hnew => ?_, fun hused => connect_duplicate hused r, ?_⟩
  · rw [connect_new hnew, validate_appended]
    cases g.checkEdge r e g.edges with
    | error found => simp [faultOf, Except.map]
    | ok u => simp [faultOf, Except.map]
  · rcases connect_ends g r e with ⟨-, h⟩ | ⟨-, ⟨fault, -, h⟩ | ⟨-, h⟩⟩
    · exact .inl ⟨_, h, by rw [edit_connect, h]; rfl⟩
    · exact .inl ⟨fault, h, by rw [edit_connect, h]; rfl⟩
    · exact .inr ⟨h, by rw [edit_connect, h]; rfl⟩

def broken : Graph := { empty "g" "G" with
  -- a graph with two nodes of one id, two edges of another, an edge that leads nowhere and a script
  -- node whose data is no script
  nodes := [.make "a" "number" .origin, .make "a" "log" .origin, .make "l" "log" .origin,
    .make "c" "compare" .origin, { Node.make "s" "script" .origin with data := .bool true }]
  edges := [{ Edge.between "a" "value" "gone" "in" with id := "x" },
    { Edge.between "a" "value" "l" "message" with id := "x" }] }

theorem connect_validates_broken :
    broken.connect .seeded (.between "a" "value" "c" "a") =
        .ok (broken.appended (.between "a" "value" "c" "a")) ∧
      broken.connect .seeded (.between "a" "value" "s" "in") =
        .error (.invalidNodeData "s" "invalid type: boolean `true`, expected struct ScriptNodeData") ∧
      broken.connect .seeded (.between "a" "value" "l" "message") =
        .error (.inputAlreadyConnected "l" "message") ∧
      broken.connect .seeded { Edge.between "a" "value" "c" "a" with id := "x" } =
        .error (.duplicateEdge "x") := by
  have hfits := ((connect_validates broken .seeded (.between "a" "value" "c" "a")).1 (by decide)).1
  have hdata := ((connect_validates broken .seeded (.between "a" "value" "s" "in")).1 (by decide)).2
  have htaken :=
    ((connect_validates broken .seeded (.between "a" "value" "l" "message")).1 (by decide)).2
  have hused := (connect_validates broken .seeded
    { Edge.between "a" "value" "c" "a" with id := "x" }).2.1 (by decide)
  exact ⟨hfits.mpr (by decide +kernel), (hdata _).mpr (by decide +kernel),
    (htaken _).mpr (by decide +kernel), hused⟩

end ScriptHost.Graph
