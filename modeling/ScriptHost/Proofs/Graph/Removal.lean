import ScriptHost.Proofs.Graph.Integrity

/-!
# Removing what was inserted

A node that is new to a whole graph has no edge there, so every edge that comes to touch it was
connected after it was added.  Removing the node takes those edges out again and leaves what was there
before, in its order.
-/

set_option autoImplicit false

namespace ScriptHost.Graph

def Grown (g g' : Graph) (n : Node) : Prop :=
  -- the graph with one more node and with more edges, all of them at that node
  ∃ added, (∀ e ∈ added, e.touches n.id = true) ∧
    g' = { g with nodes := g.nodes ++ [n], edges := g.edges ++ added }

theorem touches_iff (e : Edge) (id : String) :
    e.touches id = true ↔ e.source = id ∨ e.target = id := by
  simp [Edge.touches]

theorem addNode_new {g : Graph} {n : Node} (h : n.id ∉ g.nodes.map (·.id)) (r : Registry) :
    answer ⟨g, r⟩ (.addNode n) = .done ∧
      edit ⟨g, r⟩ (.addNode n) = ⟨{ g with nodes := g.nodes ++ [n] }, r⟩ := by
  have hadd : g.addNode n = .ok { g with nodes := g.nodes ++ [n] } := by
    rw [addNode, node?, find_absent h]
    rfl
  simp only [answer, edit, hadd]
  exact ⟨rfl, rfl⟩

theorem addNode_grown (g : Graph) (n : Node) : Grown g { g with nodes := g.nodes ++ [n] } n :=
  ⟨[], by simp, by rw [List.append_nil]⟩

theorem connect_grown {g g' : Graph} {n : Node} (h : Grown g g' n) (r : Registry) {e : Edge}
    (he : e.touches n.id = true) : Grown g (edit ⟨g', r⟩ (.connect e)).graph n := by
  obtain ⟨added, hadded, rfl⟩ := h
  rcases connect_cases { g with nodes := g.nodes ++ [n], edges := g.edges ++ added } r e with
    heq | ⟨-, -, heq⟩
  · exact ⟨added, hadded, heq⟩
  · refine ⟨added ++ [e], ?_, ?_⟩
    · intro x hx
      rcases List.mem_append.mp hx with hx | hx
      · exact hadded x hx
      · rw [List.mem_singleton.mp hx]
        exact he
    · rw [← List.append_assoc]
      exact heq

theorem connects_grown {g g' : Graph} {n : Node} (h : Grown g g' n) (r : Registry) {edges : List Edge}
    (hedges : ∀ e ∈ edges, e.touches n.id = true) :
    ∃ g'', edited ⟨g', r⟩ (edges.map .connect) = ⟨g'', r⟩ ∧ Grown g g'' n := by
  induction edges generalizing g' with
  | nil => exact ⟨g', rfl, h⟩
  | cons e rest ih =>
    obtain ⟨he, hrest⟩ := List.forall_mem_cons.mp hedges
    exact ih (connect_grown h r he) hrest

theorem untouched_of_whole {g : Graph} (h : Whole g) {id : String} (hid : id ∉ g.nodes.map (·.id)) :
    g.edges.filter (!·.touches id) = g.edges := by
  rw [List.filter_eq_self]
  intro e he
  obtain ⟨hsource, htarget⟩ := h.ends e he
  have hneither : ¬ (e.source = id ∨ e.target = id) := by
    rintro (rfl | rfl)
    · exact hid hsource
    · exact hid htarget
  rw [← touches_iff] at hneither
  simpa using hneither

theorem removeNode_grown {g g' : Graph} {n : Node} (hwhole : Whole g)
    (hid : n.id ∉ g.nodes.map (·.id)) (h : Grown g g' n) : g'.removeNode n.id = some (n, g) := by
  obtain ⟨added, hadded, rfl⟩ := h
  have hfind : (g.nodes ++ [n]).find? (·.id == n.id) = some n := find_first rfl hid
  have herase : (g.nodes ++ [n]).eraseP (·.id == n.id) = g.nodes := by
    rw [erase_first rfl hid, List.append_nil]
  have hnone : added.filter (!·.touches n.id) = [] := by
    rw [List.filter_eq_nil_iff]
    intro e he
    simp [hadded e he]
  have hedges : (g.edges ++ added).filter (!·.touches n.id) = g.edges := by
    rw [List.filter_append, untouched_of_whole hwhole hid, hnone, List.append_nil]
  simp only [removeNode, node?, hfind, herase, hedges]
  rfl

def without (g : Graph) (id : String) : Graph :=
  { g with nodes := g.nodes.eraseP (·.id == id), edges := g.edges.filter (!·.touches id) }

@[simp] theorem node_without (g : Graph) {a b : String} (h : a ≠ b) : (g.without a).node? b = g.node? b := by
  refine find_eraseP _ _ g.nodes fun n hn => ?_
  have hid : n.id = b := by simpa using hn
  simpa [hid] using h.symm

theorem without_comm (g : Graph) {a b : String} (h : a ≠ b) :
    (g.without a).without b = (g.without b).without a := by
  have hnodes : (g.nodes.eraseP (·.id == a)).eraseP (·.id == b) =
      (g.nodes.eraseP (·.id == b)).eraseP (·.id == a) := by
    refine List.eraseP_comm fun n _ => ?_
    by_cases hn : n.id = a
    · exact .inr (by simp [hn, h])
    · exact .inl (by simpa using hn)
  have hedges : (g.edges.filter (!·.touches a)).filter (!·.touches b) =
      (g.edges.filter (!·.touches b)).filter (!·.touches a) := by
    simp only [List.filter_filter, Bool.and_comm]
  simp only [without, hnodes, hedges]

theorem edit_removeNode (d : Draft) (id : String) : edit d (.removeNode id) =
    { d with graph := if (d.graph.node? id).isSome then d.graph.without id else d.graph } := by
  simp only [edit, removeNode]
  cases d.graph.node? id <;> rfl

theorem answer_removeNode (d : Draft) (id : String) :
    answer d (.removeNode id) = ((d.graph.node? id).map Answer.tookNode).getD .absent := by
  simp only [answer, removeNode]
  cases d.graph.node? id <;> rfl

/-- Removing one node does not change which node another id names. -/
theorem node_removed (d : Draft) {a b : String} (h : a ≠ b) :
    (edit d (.removeNode a)).graph.node? b = d.graph.node? b := by
  simp only [edit_removeNode]
  split
  · exact node_without d.graph h
  · rfl

theorem removals_comm (d : Draft) {a b : String} (h : a ≠ b) :
    edited d [.removeNode a, .removeNode b] = edited d [.removeNode b, .removeNode a] := by
  simp only [edited, edit_removeNode]
  cases ha : d.graph.node? a <;> cases hb : d.graph.node? b <;>
    simp [ha, hb, node_without d.graph h, node_without d.graph h.symm, without_comm d.graph h]

/-- A graph made by any edits comes back unchanged when a node that is new to it is added, edges at that
node are connected or refused, and the node is removed, which answers the node as it was added.  Two
nodes can be removed in either order, of any graph: the same nodes are answered and the same graph
remains. -/
theorem removal_undoes (id name : String) (start : Registry) (edits : List Edit) :
    let g := (edited ⟨empty id name, start⟩ edits).graph
    (∀ (r : Registry) (n : Node) (edges : List Edge), n.id ∉ g.nodes.map (·.id) →
      (∀ e ∈ edges, e.source = n.id ∨ e.target = n.id) →
      let d := edited ⟨g, r⟩ (.addNode n :: edges.map .connect)
      answer ⟨g, r⟩ (.addNode n) = .done ∧ answer d (.removeNode n.id) = .tookNode n ∧
        edit d (.removeNode n.id) = ⟨g, r⟩) ∧
    ∀ (d : Draft) (a b : String), a ≠ b →
      edited d [.removeNode a, .removeNode b] = edited d [.removeNode b, .removeNode a] ∧
      answer (edit d (.removeNode a)) (.removeNode b) = answer d (.removeNode b) := by
  intro g
  refine ⟨fun r n edges hid hedges => ?_, fun d a b hne => ⟨removals_comm d hne, ?_⟩⟩
  · have hwhole : Whole g := edited_whole (empty_whole id name) edits
    obtain ⟨hdone, hadded⟩ := addNode_new hid r
    obtain ⟨g', hedited, hgrown⟩ := connects_grown (addNode_grown g n) r
      fun e he => (touches_iff e n.id).mpr (hedges e he)
    have hrun : edited ⟨g, r⟩ (.addNode n :: edges.map .connect) = ⟨g', r⟩ := by
      rw [edited, hadded, hedited]
    have hremoved := removeNode_grown hwhole hid hgrown
    intro d
    rw [show d = ⟨g', r⟩ from hrun]
    refine ⟨hdone, ?_, ?_⟩
    · simp only [answer, hremoved]
    · simp only [edit, hremoved]
      rfl
  · rw [answer_removeNode, answer_removeNode, node_removed d hne]

def drawn : List Edit := [
  .addNode (.make "a" "on-start" .origin),
  .addNode (.make "z" "log" .origin),
  .connect (.between "a" "out" "z" "in")]

def passing : Node := .make "x" "log" .origin

def around : List Edge := [
  -- edges from, to and around it, and one that is refused because it leads nowhere
  .between "a" "out" "x" "in", .between "x" "out" "x" "in", .between "x" "out" "gone" "in",
  .between "x" "out" "z" "in"]

theorem removal_undoes_loop :
    let g := (edited ⟨empty "g" "G", .seeded⟩ drawn).graph
    let d := edited ⟨g, .seeded⟩ (.addNode passing :: around.map .connect)
    g.edges.length = 1 ∧ d.graph.edges.length = 4 ∧
      answer d (.removeNode passing.id) = .tookNode passing ∧
      edit d (.removeNode passing.id) = ⟨g, .seeded⟩ ∧
      edited d [.removeNode passing.id, .removeNode "a"] =
        edited d [.removeNode "a", .removeNode passing.id] := by
  intro g d
  obtain ⟨hundo, hcomm⟩ := removal_undoes "g" "G" .seeded drawn
  obtain ⟨-, htook, hback⟩ := hundo .seeded passing around (by decide +kernel) (by decide +kernel)
  have hcounts : g.edges.length = 1 ∧ d.graph.edges.length = 4 := by decide +kernel
  exact ⟨hcounts.1, hcounts.2, htook, hback, (hcomm d passing.id "a" (by decide)).1⟩

end ScriptHost.Graph
