import ScriptHost.Proofs.Graph.Incremental
import ScriptHost.Proofs.Registry.Lineup

/-!
# Edits keep a graph whole

An edit answers whether it was done.  `Blocked` says when it is not, and then the draft stays as it
was; `Effect` says all that it does when it is.  Whatever the data of the nodes and the registry come to
be, ids stay distinct and no edge loses a node.
-/

set_option autoImplicit false

namespace ScriptHost.Graph

inductive Answer where
  | done
  | refused (fault : GraphFault)
  | absent
  | tookNode (n : Node)
  | tookEdge (e : Edge)

def Answer.fails : Answer → Bool
  | .refused _ | .absent => true
  | .done | .tookNode _ | .tookEdge _ => false

def Answer.ofResult {α : Type} : Except GraphFault α → Answer
  | .ok _ => .done
  | .error fault => .refused fault

def Answer.ofFound (found : Bool) : Answer := if found then .done else .absent

def answer (d : Draft) : Edit → Answer
  | .addNode n => .ofResult (d.graph.addNode n)
  | .removeNode id =>
    match d.graph.removeNode id with
    | some (n, _) => .tookNode n
    | none => .absent
  | .connect e => .ofResult (d.graph.connect d.registry e)
  | .disconnect id =>
    match d.graph.disconnect id with
    | some (e, _) => .tookEdge e
    | none => .absent
  | .setData id data => .ofFound (d.graph.setData id data).isSome
  | .setType id typeId => .ofFound (d.graph.setType id typeId).isSome
  | .register t => .ofResult (d.registry.register t)
  | .unregister id => .ofFound (d.registry.unregister id).1
  | .teardown => .done

def Blocked (d : Draft) : Edit → Prop
  | .addNode n => n.id ∈ d.graph.nodes.map (·.id)
  | .removeNode id | .setData id _ | .setType id _ => id ∉ d.graph.nodes.map (·.id)
  | .connect e => e.id ∈ d.graph.edges.map (·.id) ∨
      ∃ fault, d.graph.checkEdge d.registry e d.graph.edges = .error fault
  | .disconnect id => id ∉ d.graph.edges.map (·.id)
  | .register t => d.registry.isBuiltin t.id = true ∨ ¬ t.PortsDistinct
  | .unregister id => ¬ ∃ t, d.registry.find? id = some t ∧ t.isCustom = true
  | .teardown => False

def Changes (g g' : Graph) (id : String) (change : Node → Node) : Prop :=
  ∃ before n after, g.nodes = before ++ n :: after ∧ n.id = id ∧ id ∉ before.map (·.id) ∧
    g' = { g with nodes := before ++ change n :: after }

def Effect (g g' : Graph) : Edit → Answer → Prop
  | .addNode n, .done => g' = { g with nodes := g.nodes ++ [n] }
  | .removeNode id, .tookNode n => n.id = id ∧ ∃ before after, g.nodes = before ++ n :: after ∧
      id ∉ before.map (·.id) ∧
      g' = { g with
        nodes := before ++ after
        edges := g.edges.filter fun e => e.source ≠ id ∧ e.target ≠ id }
  | .connect e, .done => g' = g.appended e
  | .disconnect id, .tookEdge e => e.id = id ∧ ∃ before after, g.edges = before ++ e :: after ∧
      id ∉ before.map (·.id) ∧ g' = { g with edges := before ++ after }
  | .setData id data, .done => Changes g g' id fun n => { n with data := data }
  | .setType id typeId, .done => Changes g g' id fun n => { n with typeId := typeId }
  | .register _, .done | .unregister _, .done | .teardown, .done => g' = g
  | _, _ => False

/-- An id is nowhere in a list, or somewhere first. -/
theorem first_of_id {α : Type} (key : α → String) (id : String) (l : List α) :
    id ∉ l.map key ∨ ∃ before x after, l = before ++ x :: after ∧ key x = id ∧
      id ∉ before.map key := by
  induction l with
  | nil => exact .inl List.not_mem_nil
  | cons y rest ih =>
    by_cases hy : key y = id
    · exact .inr ⟨[], y, rest, rfl, hy, List.not_mem_nil⟩
    · have hcons : ∀ l : List α, id ∉ l.map key → id ∉ (y :: l).map key := by
        intro l hl
        rw [List.map_cons, List.mem_cons, not_or]
        exact ⟨Ne.symm hy, hl⟩
      rcases ih with hnone | ⟨before, x, after, rfl, hx, hbefore⟩
      · exact .inl (hcons rest hnone)
      · exact .inr ⟨y :: before, x, after, rfl, hx, hcons before hbefore⟩

section
variable {α : Type} {key : α → String} {id : String}

theorem find_absent {l : List α} (h : id ∉ l.map key) : l.find? (key · == id) = none := by
  rw [List.find?_eq_none]
  intro x hx heq
  exact h (beq_iff_eq.mp heq ▸ List.mem_map_of_mem hx)

theorem not_id {before : List α} (h : id ∉ before.map key) : ∀ y ∈ before, ¬ (key y == id) = true := by
  intro y hy heq
  exact h (beq_iff_eq.mp heq ▸ List.mem_map_of_mem hy)

theorem find_first {before after : List α} {x : α} (hx : key x = id) (h : id ∉ before.map key) :
    (before ++ x :: after).find? (key · == id) = some x := by
  rw [List.find?_append, find_absent h, Option.none_or, List.find?_cons_of_pos (by simp [hx])]

theorem erase_first {before after : List α} {x : α} (hx : key x = id) (h : id ∉ before.map key) :
    (before ++ x :: after).eraseP (key · == id) = before ++ after := by
  rw [List.eraseP_append_right _ (not_id h), List.eraseP_cons_of_pos (by simp [hx])]

end

theorem node_id_mem {g : Graph} {id : String} {n : Node} (h : g.node? id = some n) :
    id ∈ g.nodes.map (·.id) := by
  have hid : n.id = id := by simpa using List.find?_some h
  exact hid ▸ List.mem_map_of_mem (List.mem_of_find?_eq_some h)

theorem modifyFirst_first {before after : List Node} {n : Node} {id : String} (hn : n.id = id)
    (h : id ∉ before.map (·.id)) (change : Node → Node) :
    modifyFirst id change (before ++ n :: after) = before ++ change n :: after := by
  induction before with
  | nil => rw [List.nil_append, modifyFirst, if_pos (by simp [hn])]; rfl
  | cons m rest ih =>
    rw [List.map_cons, List.mem_cons, not_or] at h
    rw [List.cons_append, modifyFirst, if_neg (by simpa using Ne.symm h.1), ih h.2]
    rfl

structure Outcome (d : Draft) (e : Edit) : Prop where
  fails : (answer d e).fails = true ↔ Blocked d e
  stays : Blocked d e → edit d e = d
  effect : ¬ Blocked d e → Effect d.graph (edit d e).graph e (answer d e)

theorem outcome_blocked {d : Draft} {e : Edit} (hblocked : Blocked d e)
    (hfails : (answer d e).fails = true) (hstays : edit d e = d) : Outcome d e where
  fails := iff_of_true hfails hblocked
  stays _ := hstays
  effect hfree := absurd hblocked hfree

theorem outcome_done {d : Draft} {e : Edit} {a : Answer} (hfree : ¬ Blocked d e)
    (hanswer : answer d e = a) (hdone : a.fails = false)
    (heffect : Effect d.graph (edit d e).graph e a) : Outcome d e where
  fails := iff_of_false (by rw [hanswer, hdone]; exact Bool.false_ne_true) hfree
  stays hblocked := absurd hblocked hfree
  effect _ := hanswer ▸ heffect

theorem addNode_outcome (d : Draft) (n : Node) : Outcome d (.addNode n) := by
  have hused : (d.graph.node? n.id).isSome = true ↔ n.id ∈ d.graph.nodes.map (·.id) := by
    rw [node?, List.find?_isSome, List.mem_map]
    simp only [beq_iff_eq]
  by_cases h : n.id ∈ d.graph.nodes.map (·.id)
  · have hadd : d.graph.addNode n = .error (.duplicateNode n.id) := if_pos (hused.mpr h)
    have hfails : (answer d (.addNode n)).fails = true := by
      simp only [answer, hadd]; rfl
    have hstays : edit d (.addNode n) = d := by
      simp only [edit, hadd]; rfl
    exact outcome_blocked h hfails hstays
  · have hadd : d.graph.addNode n = .ok { d.graph with nodes := d.graph.nodes ++ [n] } :=
      if_neg fun hsome => h (hused.mp hsome)
    have hdone : answer d (.addNode n) = .done := by
      simp only [answer, hadd]; rfl
    have hedit : (edit d (.addNode n)).graph = { d.graph with nodes := d.graph.nodes ++ [n] } := by
      simp only [edit, hadd]; rfl
    exact outcome_done h hdone rfl hedit

theorem removeNode_outcome (d : Draft) (id : String) : Outcome d (.removeNode id) := by
  rcases first_of_id (·.id) id d.graph.nodes with h | ⟨before, n, after, hnodes, hn, hbefore⟩
  · have hremove : d.graph.removeNode id = none := by
      rw [removeNode, node?, find_absent h]
      rfl
    have hfails : (answer d (.removeNode id)).fails = true := by
      simp only [answer, hremove]; rfl
    have hstays : edit d (.removeNode id) = d := by
      simp only [edit, hremove]; rfl
    exact outcome_blocked h hfails hstays
  · have hapart : (fun e : Edge => !e.touches id) =
        fun e => decide (e.source ≠ id ∧ e.target ≠ id) := by
      funext e
      rw [Bool.eq_iff_iff]
      simp [Edge.touches]
    have hremove : d.graph.removeNode id = some (n, { d.graph with
        nodes := before ++ after
        edges := d.graph.edges.filter fun e => e.source ≠ id ∧ e.target ≠ id }) := by
      rw [removeNode, node?, hnodes, find_first hn hbefore, erase_first hn hbefore, hapart]
      rfl
    have hfree : ¬ Blocked d (.removeNode id) := by
      simp [Blocked, hnodes, hn]
    have htook : answer d (.removeNode id) = .tookNode n := by
      simp only [answer, hremove]
    have hedit : (edit d (.removeNode id)).graph = { d.graph with
        nodes := before ++ after
        edges := d.graph.edges.filter fun e => e.source ≠ id ∧ e.target ≠ id } := by
      simp only [edit, hremove]; rfl
    exact outcome_done hfree htook rfl ⟨hn, before, after, hnodes, hbefore, hedit⟩

theorem connect_outcome (d : Draft) (e : Edge) : Outcome d (.connect e) := by
  have hrefused : ∀ fault, d.graph.connect d.registry e = .error fault →
      (answer d (.connect e)).fails = true ∧ edit d (.connect e) = d := by
    intro fault h
    simp only [answer, edit, h]
    exact ⟨rfl, rfl⟩
  rcases connect_ends d.graph d.registry e with
    ⟨hused, h⟩ | ⟨hnew, ⟨fault, hcheck, h⟩ | ⟨hcheck, h⟩⟩
  · obtain ⟨hfails, hstays⟩ := hrefused _ h
    exact outcome_blocked (.inl hused) hfails hstays
  · obtain ⟨hfails, hstays⟩ := hrefused fault h
    exact outcome_blocked (.inr ⟨fault, hcheck⟩) hfails hstays
  · have hfree : ¬ Blocked d (.connect e) := by
      simp [Blocked, hnew, hcheck]
    have hdone : answer d (.connect e) = .done := by
      simp only [answer, h]; rfl
    have hedit : (edit d (.connect e)).graph = d.graph.appended e := by
      simp only [edit, h]; rfl
    exact outcome_done hfree hdone rfl hedit

theorem disconnect_outcome (d : Draft) (id : String) : Outcome d (.disconnect id) := by
  rcases first_of_id (·.id) id d.graph.edges with h | ⟨before, e, after, hedges, he, hbefore⟩
  · have hdisconnect : d.graph.disconnect id = none := by
      rw [disconnect, edge?, find_absent h]
      rfl
    have hfails : (answer d (.disconnect id)).fails = true := by
      simp only [answer, hdisconnect]; rfl
    have hstays : edit d (.disconnect id) = d := by
      simp only [edit, hdisconnect]; rfl
    exact outcome_blocked h hfails hstays
  · have hdisconnect : d.graph.disconnect id =
        some (e, { d.graph with edges := before ++ after }) := by
      rw [disconnect, edge?, hedges, find_first he hbefore, erase_first he hbefore]
      rfl
    have hfree : ¬ Blocked d (.disconnect id) := by
      simp [Blocked, hedges, he]
    have htook : answer d (.disconnect id) = .tookEdge e := by
      simp only [answer, hdisconnect]
    have hedit : (edit d (.disconnect id)).graph = { d.graph with edges := before ++ after } := by
      simp only [edit, hdisconnect]; rfl
    exact outcome_done hfree htook rfl ⟨he, before, after, hedges, hbefore, hedit⟩

def modified (g : Graph) (id : String) (change : Node → Node) : Option Graph :=
  (g.node? id).map fun _ => { g with nodes := modifyFirst id change g.nodes }

/-- An edit that changes the first node of an id. -/
theorem modified_outcome {d : Draft} {e : Edit} {id : String} (change : Node → Node)
    (hblocked : Blocked d e ↔ id ∉ d.graph.nodes.map (·.id))
    (hanswer : answer d e = .ofFound (modified d.graph id change).isSome)
    (hedit : edit d e = { d with graph := (modified d.graph id change).getD d.graph })
    (heffect : ∀ g g', Changes g g' id change → Effect g g' e .done) : Outcome d e := by
  rcases first_of_id (·.id) id d.graph.nodes with h | ⟨before, n, after, hnodes, hn, hbefore⟩
  · have hmodified : modified d.graph id change = none := by
      rw [modified, node?, find_absent h]
      rfl
    rw [hmodified] at hanswer hedit
    exact outcome_blocked (hblocked.mpr h) (by rw [hanswer]; rfl) hedit
  · have hmodified : modified d.graph id change =
        some { d.graph with nodes := before ++ change n :: after } := by
      rw [modified, node?, hnodes, find_first hn hbefore, modifyFirst_first hn hbefore]
      rfl
    have hfree : ¬ Blocked d e := by
      rw [hblocked, hnodes]
      simp [hn]
    rw [hmodified] at hanswer hedit
    have hgraph : (edit d e).graph = { d.graph with nodes := before ++ change n :: after } := by
      rw [hedit]
      rfl
    exact outcome_done hfree hanswer rfl
      (heffect _ _ ⟨before, n, after, hnodes, hn, hbefore, hgraph⟩)

theorem register_outcome (d : Draft) (t : NodeType) : Outcome d (.register t) := by
  have hrefused : ∀ fault, d.registry.register t = .error fault →
      (answer d (.register t)).fails = true ∧ edit d (.register t) = d := by
    intro fault h
    simp only [answer, edit, h]
    exact ⟨rfl, rfl⟩
  rcases Registry.register_ends d.registry t with
    ⟨hbuiltin, h⟩ | ⟨hbuiltin, ⟨hports, fault, h⟩ | ⟨hports, h⟩⟩
  · obtain ⟨hfails, hstays⟩ := hrefused _ h
    exact outcome_blocked (.inl hbuiltin) hfails hstays
  · obtain ⟨hfails, hstays⟩ := hrefused fault h
    exact outcome_blocked (.inr hports) hfails hstays
  · have hfree : ¬ Blocked d (.register t) := by
      simp [Blocked, hbuiltin, hports]
    have hdone : answer d (.register t) = .done := by
      simp only [answer, h]; rfl
    exact outcome_done hfree hdone rfl rfl

theorem unregister_outcome (d : Draft) (id : String) : Outcome d (.unregister id) := by
  rcases Registry.unregister_ends d.registry id with ⟨hfound, h⟩ | ⟨hnone, h⟩
  · have hdone : answer d (.unregister id) = .done := by
      simp only [answer, h]; rfl
    exact outcome_done (not_not.mpr hfound) hdone rfl rfl
  · have hfails : (answer d (.unregister id)).fails = true := by
      simp only [answer, h]; rfl
    have hstays : edit d (.unregister id) = d := by
      simp only [edit, h]
    exact outcome_blocked hnone hfails hstays

theorem edit_outcome (d : Draft) (e : Edit) : Outcome d e := by
  cases e with
  | addNode n => exact addNode_outcome d n
  | removeNode id => exact removeNode_outcome d id
  | connect e => exact connect_outcome d e
  | disconnect id => exact disconnect_outcome d id
  | setData id data =>
    exact modified_outcome (fun n => { n with data := data }) .rfl rfl rfl fun _ _ h => h
  | setType id typeId =>
    exact modified_outcome (fun n => { n with typeId := typeId }) .rfl rfl rfl fun _ _ h => h
  | register t => exact register_outcome d t
  | unregister id => exact unregister_outcome d id
  | teardown => exact outcome_done not_false rfl rfl rfl

structure Whole (g : Graph) : Prop where
  nodes : (g.nodes.map (·.id)).Nodup
  edges : (g.edges.map (·.id)).Nodup
  ends : ∀ e ∈ g.edges, e.source ∈ g.nodes.map (·.id) ∧ e.target ∈ g.nodes.map (·.id)

theorem empty_whole (id name : String) : Whole (empty id name) where
  nodes := List.nodup_nil
  edges := List.nodup_nil
  ends _ he := absurd he List.not_mem_nil

theorem nodup_add {ids : List String} (h : ids.Nodup) {id : String} (hid : id ∉ ids) :
    (ids ++ [id]).Nodup := h.append (List.nodup_singleton _) (by simpa using hid)

theorem addNode_whole {g : Graph} (h : Whole g) {n : Node} (hn : n.id ∉ g.nodes.map (·.id)) :
    Whole { g with nodes := g.nodes ++ [n] } where
  nodes := by
    rw [List.map_append]
    exact nodup_add h.nodes hn
  edges := h.edges
  ends e he := by
    rw [List.map_append, List.mem_append, List.mem_append]
    exact ⟨.inl (h.ends e he).1, .inl (h.ends e he).2⟩

theorem removeNode_whole {g : Graph} (h : Whole g) {before after : List Node} {n : Node}
    (hnodes : g.nodes = before ++ n :: after) :
    Whole { g with
      nodes := before ++ after
      edges := g.edges.filter fun e => e.source ≠ n.id ∧ e.target ≠ n.id } where
  nodes := by
    have hsub : (before ++ after).Sublist g.nodes := by
      rw [hnodes]
      exact (List.sublist_cons_self n after).append_left before
    exact h.nodes.sublist (hsub.map _)
  edges := h.edges.sublist (List.filter_sublist.map _)
  ends e he := by
    obtain ⟨hmem, hapart⟩ := List.mem_filter.mp he
    obtain ⟨hsource, htarget⟩ := h.ends e hmem
    rw [decide_eq_true_eq] at hapart
    rw [hnodes] at hsource htarget
    have hrest : ∀ id, id ≠ n.id → id ∈ (before ++ n :: after).map (·.id) →
        id ∈ (before ++ after).map (·.id) := by
      intro id hid hin
      simpa [hid] using hin
    exact ⟨hrest _ hapart.1 hsource, hrest _ hapart.2 htarget⟩

theorem appended_whole {g : Graph} (h : Whole g) {r : Registry} {e : Edge}
    (hid : e.id ∉ g.edges.map (·.id)) (hcheck : g.checkEdge r e g.edges = .ok ()) :
    Whole (g.appended e) where
  nodes := h.nodes
  edges := by
    show ((g.edges ++ [e]).map (·.id)).Nodup
    rw [List.map_append]
    exact nodup_add h.edges hid
  ends x hx := by
    rcases List.mem_append.mp hx with hx | hx
    · exact h.ends x hx
    · obtain ⟨source, target, -, -, -, -, hsource, htarget, -⟩ :=
        ((checkEdge_iff g r e g.edges).mp hcheck).1.ends
      rw [List.mem_singleton.mp hx]
      exact ⟨node_id_mem hsource, node_id_mem htarget⟩

theorem disconnect_whole {g : Graph} (h : Whole g) {edges : List Edge}
    (hedges : edges.Sublist g.edges) : Whole { g with edges := edges } where
  nodes := h.nodes
  edges := h.edges.sublist (hedges.map _)
  ends e he := h.ends e (hedges.subset he)

theorem changes_whole {g g' : Graph} (h : Whole g) {id : String} {change : Node → Node}
    (hchanges : Changes g g' id change) (hid : ∀ n, (change n).id = n.id) : Whole g' := by
  obtain ⟨before, n, after, hnodes, -, -, rfl⟩ := hchanges
  have hids : (before ++ change n :: after).map (·.id) = g.nodes.map (·.id) := by
    rw [hnodes]
    simp [hid]
  refine ⟨?_, h.edges, ?_⟩
  · show ((before ++ change n :: after).map (·.id)).Nodup
    rw [hids]
    exact h.nodes
  · show ∀ e ∈ g.edges, e.source ∈ (before ++ change n :: after).map (·.id) ∧
      e.target ∈ (before ++ change n :: after).map (·.id)
    rw [hids]
    exact h.ends

theorem effect_whole {d : Draft} (h : Whole d.graph) {e : Edit} (hfree : ¬ Blocked d e) {g' : Graph}
    {a : Answer} (heffect : Effect d.graph g' e a) : Whole g' := by
  cases e with
  | addNode n =>
    cases a with
    | done => exact heffect ▸ addNode_whole h hfree
    | _ => exact heffect.elim
  | removeNode id =>
    cases a with
    | tookNode n =>
      obtain ⟨rfl, before, after, hnodes, -, rfl⟩ := heffect
      exact removeNode_whole h hnodes
    | _ => exact heffect.elim
  | connect e =>
    cases a with
    | done =>
      obtain ⟨hid, hchecked⟩ := not_or.mp hfree
      cases hcheck : d.graph.checkEdge d.registry e d.graph.edges with
      | error fault => exact absurd ⟨fault, hcheck⟩ hchecked
      | ok u => exact heffect ▸ appended_whole h hid hcheck
    | _ => exact heffect.elim
  | disconnect id =>
    cases a with
    | tookEdge e =>
      obtain ⟨-, before, after, hedges, -, rfl⟩ := heffect
      refine disconnect_whole h ?_
      rw [hedges]
      exact (List.sublist_cons_self e after).append_left before
    | _ => exact heffect.elim
  | setData id data =>
    cases a with
    | done => exact changes_whole h heffect fun _ => rfl
    | _ => exact heffect.elim
  | setType id typeId =>
    cases a with
    | done => exact changes_whole h heffect fun _ => rfl
    | _ => exact heffect.elim
  | register t | unregister id | teardown =>
    cases a with
    | done => exact heffect ▸ h
    | _ => exact heffect.elim

theorem edit_whole {d : Draft} (h : Whole d.graph) (e : Edit) : Whole (edit d e).graph := by
  obtain ⟨-, hstays, heffect⟩ := edit_outcome d e
  by_cases hblocked : Blocked d e
  · rw [hstays hblocked]
    exact h
  · exact effect_whole h hblocked (heffect hblocked)

theorem edited_whole {d : Draft} (h : Whole d.graph) (edits : List Edit) :
    Whole (edited d edits).graph := by
  induction edits generalizing d with
  | nil => exact h
  | cons e rest ih => exact ih (edit_whole h e)

/-- After any edits, of the graph, of the data and types of its nodes and of the registry, the graph is
whole.  The next edit fails exactly when it is blocked and then leaves the draft as it was; when it is
done, `Effect` is all that it does. -/
theorem edited_integrity (id name : String) (r : Registry) (edits : List Edit) :
    let d := edited ⟨empty id name, r⟩ edits
    Whole d.graph ∧ ∀ e,
      ((answer d e).fails = true ↔ Blocked d e) ∧
      ((answer d e).fails = true → edit d e = d) ∧
      ((answer d e).fails = false → Effect d.graph (edit d e).graph e (answer d e)) := by
  intro d
  refine ⟨edited_whole (empty_whole id name) edits, fun e => ?_⟩
  obtain ⟨hfails, hstays, heffect⟩ := edit_outcome d e
  refine ⟨hfails, fun h => hstays (hfails.mp h), fun h => heffect fun hblocked => ?_⟩
  rw [hfails.mpr hblocked] at h
  exact Bool.false_ne_true h.symm

end ScriptHost.Graph
