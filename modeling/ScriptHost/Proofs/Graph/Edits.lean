import ScriptHost.Proofs.Dict
import ScriptHost.Proofs.Graph.Checks

/-!
# Edits

A `Draft` is a graph and the registry that it is edited with.  An edge is checked when it is connected;
this module shows why it still fits later: as long as the registry only grows, no edit changes what an
edge that stays sees of its nodes and of their ports.
-/

set_option autoImplicit false

namespace ScriptHost.Graph

structure Draft where
  graph : Graph
  registry : Registry

inductive Edit where
  | addNode (n : Node)
  | removeNode (id : String)
  | connect (e : Edge)
  | disconnect (id : String)
  | setData (id : String) (data : Json)
  | setType (id typeId : String)
  | register (t : NodeType)
  | unregister (id : String)
  | teardown

def edit (d : Draft) : Edit → Draft
  | .addNode n => { d with graph := (d.graph.addNode n).toOption.getD d.graph }
  | .removeNode id => { d with graph := ((d.graph.removeNode id).map (·.2)).getD d.graph }
  | .connect e => { d with graph := (d.graph.connect d.registry e).toOption.getD d.graph }
  | .disconnect id => { d with graph := ((d.graph.disconnect id).map (·.2)).getD d.graph }
  | .setData id data => { d with graph := (d.graph.setData id data).getD d.graph }
  | .setType id typeId => { d with graph := (d.graph.setType id typeId).getD d.graph }
  | .register t => { d with registry := (d.registry.register t).toOption.getD d.registry }
  | .unregister id => { d with registry := (d.registry.unregister id).2 }
  | .teardown => { d with registry := d.registry.teardown }

def edited (d : Draft) : List Edit → Draft
  | [] => d
  | e :: rest => edited (edit d e) rest

theorem addNode_cases (g : Graph) (n : Node) :
    (g.addNode n).toOption.getD g = g ∨
      g.node? n.id = none ∧ (g.addNode n).toOption.getD g = { g with nodes := g.nodes ++ [n] } := by
  unfold addNode
  cases hn : g.node? n.id with
  | none => exact .inr ⟨rfl, rfl⟩
  | some m => exact .inl rfl

theorem removeNode_cases (g : Graph) (id : String) :
    ((g.removeNode id).map (·.2)).getD g = g ∨ ((g.removeNode id).map (·.2)).getD g =
      { g with nodes := g.nodes.eraseP (·.id == id), edges := g.edges.filter (!·.touches id) } := by
  unfold removeNode
  cases g.node? id with
  | none => exact .inl rfl
  | some n => exact .inr rfl

theorem connect_cases (g : Graph) (r : Registry) (e : Edge) :
    (g.connect r e).toOption.getD g = g ∨ g.edge? e.id = none ∧ g.checkEdge r e g.edges = .ok () ∧
      (g.connect r e).toOption.getD g = { g with edges := g.edges ++ [e] } := by
  unfold connect
  cases he : g.edge? e.id with
  | some x => exact .inl rfl
  | none =>
    cases hcheck : g.checkEdge r e g.edges with
    | error fault => exact .inl rfl
    | ok u => exact .inr ⟨rfl, rfl, rfl⟩

theorem disconnect_cases (g : Graph) (id : String) :
    ((g.disconnect id).map (·.2)).getD g = g ∨ ((g.disconnect id).map (·.2)).getD g =
      { g with edges := g.edges.eraseP (·.id == id) } := by
  unfold disconnect
  cases g.edge? id with
  | none => exact .inl rfl
  | some e => exact .inr rfl

theorem register_cases (r : Registry) (t : NodeType) :
    (r.register t).toOption.getD r = r ∨
      (r.register t).toOption.getD r = r.put { t with custom := some true } := by
  unfold Registry.register
  by_cases hbuiltin : r.isBuiltin t.id = true
  · rw [if_pos hbuiltin]
    exact .inl rfl
  · rw [if_neg hbuiltin]
    cases t.checkPorts with
    | error fault => exact .inl rfl
    | ok u => exact .inr rfl

def Grows (r r' : Registry) : Prop := ∀ id t, r.find? id = some t → r'.find? id = some t

def Keeps (g g' : Graph) (id : String) : Prop := ∀ n, g.node? id = some n → g'.node? id = some n

theorem portsOf_grows {r r' : Registry} (h : Grows r r') {n : Node} {dir : Direction}
    {ports : List Port} (hp : r.portsOf n dir = .ok ports) : r'.portsOf n dir = .ok ports := by
  cases ht : r.find? n.typeId with
  | none => simp [Registry.portsOf, ht] at hp
  | some t =>
    have ht' := h n.typeId t ht
    simp only [Registry.portsOf, ht] at hp
    simp only [Registry.portsOf, ht']
    exact hp

theorem attached_keeps {g g' : Graph} {r r' : Registry} {e : Edge} (hr : Grows r r')
    (hs : Keeps g g' e.source) (ht : Keeps g g' e.target) (he : Attached g r e) :
    Attached g' r' e := by
  obtain ⟨source, target, outs, ins, output, input, hsource, htarget, houts, hout, hins, hin, hfeeds⟩ :=
    he.ends
  exact ⟨source, target, outs, ins, output, input, hs source hsource, ht target htarget,
    portsOf_grows hr houts, hout, portsOf_grows hr hins, hin, hfeeds⟩

/-- An edge that is attached does not come to bring data later. -/
theorem enters_keeps {g g' : Graph} {r r' : Registry} {e : Edge} (hr : Grows r r')
    (ht : Keeps g g' e.target) (he : Attached g r e) (hin : Enters g' r' e) : Enters g r e := by
  obtain ⟨-, target, -, ins, -, -, -, htarget, -, -, hins, -, -⟩ := he.ends
  obtain ⟨target', ports, htarget', hports, hdata⟩ := hin
  obtain rfl := Option.some.inj ((ht target htarget).symm.trans htarget')
  obtain rfl := Except.ok.inj ((portsOf_grows hr hins).symm.trans hports)
  exact ⟨target, ins, htarget, hins, hdata⟩

/-- Nodes are told apart by their ids, and every edge would pass its check again. -/
structure Wired (g : Graph) (r : Registry) : Prop where
  nodes : (g.nodes.map (·.id)).Nodup
  attached : ∀ e ∈ g.edges, Attached g r e
  single : g.edges.Pairwise fun x e => Enters g r e → ¬ Meet x e

/-- Edges may go, and those that stay see the same. -/
theorem wired_keeps {g g' : Graph} {r r' : Registry} (h : Wired g r)
    (hnodes : (g'.nodes.map (·.id)).Nodup) (hedges : g'.edges.Sublist g.edges) (hr : Grows r r')
    (hsees : ∀ e ∈ g'.edges, Keeps g g' e.source ∧ Keeps g g' e.target) : Wired g' r' where
  nodes := hnodes
  attached e he :=
    attached_keeps hr (hsees e he).1 (hsees e he).2 (h.attached e (hedges.subset he))
  single := by
    apply (h.single.sublist hedges).imp_of_mem
    intro x e _ he hxe hin
    exact hxe (enters_keeps hr (hsees e he).2 (h.attached e (hedges.subset he)) hin)

theorem keeps_refl (g : Graph) (id : String) : Keeps g g id := fun _ hn => hn

theorem grows_refl (r : Registry) : Grows r r := fun _ _ ht => ht

theorem addNode_wired {g : Graph} {r : Registry} (h : Wired g r) (n : Node) :
    Wired ((g.addNode n).toOption.getD g) r := by
  rcases addNode_cases g n with heq | ⟨hnew, heq⟩
  · rw [heq]
    exact h
  · have hkeeps : ∀ id, Keeps g { g with nodes := g.nodes ++ [n] } id := by
      intro id m hm
      show (g.nodes ++ [n]).find? (·.id == id) = some m
      rw [List.find?_append, show g.nodes.find? (·.id == id) = some m from hm]
      rfl
    rw [heq]
    refine wired_keeps h ?_ (List.Sublist.refl _) (grows_refl r) fun e _ => ⟨hkeeps _, hkeeps _⟩
    rw [List.map_append]
    refine h.nodes.append (List.nodup_singleton _) ?_
    intro id hold hid
    obtain ⟨m, hm, rfl⟩ := List.mem_map.mp hold
    have hnone := List.find?_eq_none.mp hnew m hm
    simp only [List.map_cons, List.map_nil, List.mem_singleton] at hid
    simp [hid] at hnone

theorem find_eraseP {α : Type} (p q : α → Bool) (l : List α) (h : ∀ a, q a = true → p a = false) :
    (l.eraseP p).find? q = l.find? q := by
  induction l with
  | nil => rfl
  | cons a rest ih =>
    by_cases hp : p a = true
    · have hq : q a = false := by
        by_contra hq
        have := h a (by simpa using hq)
        rw [hp] at this
        simp at this
      rw [List.eraseP_cons_of_pos hp, List.find?_cons, hq]
    · rw [List.eraseP_cons_of_neg hp, List.find?_cons, List.find?_cons, ih]

theorem removeNode_wired {g : Graph} {r : Registry} (h : Wired g r) (id : String) :
    Wired (((g.removeNode id).map (·.2)).getD g) r := by
  rcases removeNode_cases g id with heq | heq
  · rw [heq]
    exact h
  · rw [heq]
    refine wired_keeps h (h.nodes.sublist (List.eraseP_sublist.map _)) List.filter_sublist
      (grows_refl r) ?_
    have hkeeps : ∀ other, other ≠ id → Keeps g { g with
        nodes := g.nodes.eraseP (·.id == id), edges := g.edges.filter (!·.touches id) } other := by
      intro other hne n hn
      show (g.nodes.eraseP (·.id == id)).find? (·.id == other) = some n
      rw [find_eraseP]
      · exact hn
      · intro m hm
        have hid : m.id = other := by simpa using hm
        simp [hid, hne]
    intro e he
    have hapart : e.source ≠ id ∧ e.target ≠ id := by
      have huntouched := (List.mem_filter.mp he).2
      simpa [Edge.touches] using huntouched
    exact ⟨hkeeps _ hapart.1, hkeeps _ hapart.2⟩

theorem connect_wired {g : Graph} {r : Registry} (h : Wired g r) (e : Edge) :
    Wired ((g.connect r e).toOption.getD g) r := by
  rcases connect_cases g r e with heq | ⟨-, hcheck, heq⟩
  · rw [heq]
    exact h
  · rw [heq]
    obtain ⟨hattached, hsingle⟩ := (checkEdge_iff g r e g.edges).mp hcheck
    refine ⟨h.nodes, ?_, ?_⟩
    · intro x hx
      rcases List.mem_append.mp hx with hx | hx
      · exact attached_keeps (grows_refl r) (keeps_refl g _) (keeps_refl g _) (h.attached x hx)
      · rw [List.mem_singleton.mp hx]
        exact attached_keeps (grows_refl r) (keeps_refl g _) (keeps_refl g _) hattached
    · show (g.edges ++ [e]).Pairwise _
      rw [List.pairwise_append]
      refine ⟨h.single, List.pairwise_singleton _ _, ?_⟩
      intro x hx y hy hin
      obtain rfl := List.mem_singleton.mp hy
      exact hsingle hin x hx

theorem disconnect_wired {g : Graph} {r : Registry} (h : Wired g r) (id : String) :
    Wired (((g.disconnect id).map (·.2)).getD g) r := by
  rcases disconnect_cases g id with heq | heq
  · rw [heq]
    exact h
  · rw [heq]
    exact wired_keeps h h.nodes List.eraseP_sublist (grows_refl r)
      fun e _ => ⟨keeps_refl g _, keeps_refl g _⟩

theorem register_grows {r : Registry} {t : NodeType} (h : r.find? t.id = none) :
    Grows r ((r.register t).toOption.getD r) := by
  rcases register_cases r t with heq | heq
  · rw [heq]
    exact grows_refl r
  · intro id u hu
    rw [heq]
    show Dict.find? (Dict.insert r.types t.id _) id = some u
    rw [Dict.find_insert, if_neg]
    · exact hu
    · rintro rfl
      rw [h] at hu
      simp at hu

def Extends (d : Draft) : Edit → Prop
  | .register t => d.registry.find? t.id = none
  | .addNode _ | .removeNode _ | .connect _ | .disconnect _ => True
  | .setData _ _ | .setType _ _ | .unregister _ | .teardown => False

def Extending : Draft → List Edit → Prop
  | _, [] => True
  | d, e :: rest => Extends d e ∧ Extending (edit d e) rest

theorem edit_wired {d : Draft} (h : Wired d.graph d.registry) (e : Edit) (he : Extends d e) :
    Wired (edit d e).graph (edit d e).registry := by
  cases e with
  | addNode n => exact addNode_wired h n
  | removeNode id => exact removeNode_wired h id
  | connect e => exact connect_wired h e
  | disconnect id => exact disconnect_wired h id
  | register t =>
    exact wired_keeps h h.nodes (List.Sublist.refl _) (register_grows he)
      fun e _ => ⟨keeps_refl _ _, keeps_refl _ _⟩
  | setData id data => exact he.elim
  | setType id typeId => exact he.elim
  | unregister id => exact he.elim
  | teardown => exact he.elim

theorem edited_wired {d : Draft} (h : Wired d.graph d.registry) (edits : List Edit)
    (he : Extending d edits) : Wired (edited d edits).graph (edited d edits).registry := by
  induction edits generalizing d with
  | nil => exact h
  | cons e rest ih => exact ih (edit_wired h e he.1) he.2

theorem empty_wired (id name : String) (r : Registry) : Wired (empty id name) r where
  nodes := List.nodup_nil
  attached _ he := absurd he List.not_mem_nil
  single := .nil

theorem typeFaults_eq (g : Graph) (r : Registry) :
    g.typeFaults r = (g.nodes.filter fun n => (r.find? n.typeId).isNone).map
      fun n => .unknownNodeType n.typeId := by
  rw [typeFaults, ← List.filterMap_eq_map, List.filterMap_filter]
  apply List.filterMap_congr
  intro n _
  cases r.find? n.typeId <;> rfl

/-- Where keys are distinct, the first entry of a key is the only one. -/
theorem find_of_distinct {α : Type} (key : α → String) {l : List α} (h : (l.map key).Nodup) {x : α}
    (hx : x ∈ l) : l.find? (key · == key x) = some x := by
  have hsome : (l.find? (key · == key x)).isSome = true := by
    rw [List.find?_isSome]
    exact ⟨x, hx, by simp⟩
  obtain ⟨y, hy⟩ := Option.isSome_iff_exists.mp hsome
  have hkey : key y = key x := by simpa using List.find?_some hy
  rw [hy, List.inj_on_of_nodup_map h (List.mem_of_find?_eq_some hy) hx hkey]

theorem node_of_mem {g : Graph} (h : (g.nodes.map (·.id)).Nodup) {n : Node} (hn : n ∈ g.nodes) :
    g.node? n.id = some n := find_of_distinct Node.id h hn

def into (g : Graph) (node port : String) : List Edge :=
  g.edges.filter fun e => e.target == node && e.targetHandle == port

theorem into_single {g : Graph} {r : Registry} (h : Wired g r) {n : Node} (hn : n ∈ g.nodes)
    {ports : List Port} (hports : r.portsOf n .input = .ok ports) {p : Port} (hp : p ∈ ports)
    (hdata : p.type.isData = true) : (g.into n.id p.id).length ≤ 1 := by
  have hnode := node_of_mem h.nodes hn
  have hends : ∀ e ∈ g.into n.id p.id, e.target = n.id ∧ e.targetHandle = p.id := by
    intro e he
    simpa using (List.mem_filter.mp he).2
  have hnone : (g.into n.id p.id).Pairwise fun _ _ => False := by
    apply (h.single.sublist List.filter_sublist).imp_of_mem
    intro x e hx he hxe
    obtain ⟨hxt, hxh⟩ := hends x hx
    obtain ⟨het, heh⟩ := hends e he
    exact hxe ⟨n, ports, het ▸ hnode, hports, p, hp, heh.symm, hdata⟩
      ⟨hxt.trans het.symm, hxh.trans heh.symm⟩
  cases hall : g.into n.id p.id with
  | nil => exact Nat.zero_le _
  | cons x rest =>
    rw [hall, List.pairwise_cons] at hnone
    cases rest with
    | nil => exact Nat.le_refl _
    | cons y rest => exact (hnone.1 y List.mem_cons_self).elim

/-- Whatever was added, removed, connected and disconnected, and whatever types were added to the
registry meanwhile: only nodes of unknown types are at fault, each once, and no edge is. -/
theorem edited_validates (id name : String) (r : Registry) (edits : List Edit)
    (he : Extending ⟨empty id name, r⟩ edits) :
    let d := edited ⟨empty id name, r⟩ edits
    d.graph.validate d.registry =
        (d.graph.nodes.filter fun n => (d.registry.find? n.typeId).isNone).map
          (fun n => .unknownNodeType n.typeId) ∧
      (∀ e ∈ d.graph.edges, Attached d.graph d.registry e) ∧
      ∀ n ∈ d.graph.nodes, ∀ ports, d.registry.portsOf n .input = .ok ports →
        ∀ p ∈ ports, p.type.isData = true → (d.graph.into n.id p.id).length ≤ 1 := by
  intro d
  have hwired : Wired d.graph d.registry := edited_wired (empty_wired id name r) edits he
  have hedges : d.graph.edgeFaults d.registry [] d.graph.edges = [] := by
    rw [edgeFaults_nil]
    exact ⟨hwired.attached, fun e _ _ x hx => absurd hx List.not_mem_nil, hwired.single⟩
  refine ⟨?_, hwired.attached, ?_⟩
  · rw [validate, hedges, List.append_nil, typeFaults_eq]
  · intro n hn ports hports p hp hdata
    exact into_single hwired hn hports hp hdata

def giver : NodeType := (NodeType.make "give" "Give" .action).output (.make "n" "N" .number)

def taker : NodeType := (NodeType.make "take" "Take" .action).input (.make "n" "N" .number)

def rewiring : List Edit := [
  -- a node goes and comes back as one of a type that is registered only after it
  .register giver,
  .addNode (.make "a" "give" .origin),
  .addNode (.make "b" "late" .origin),
  .connect (.between "a" "n" "b" "n"),
  .removeNode "b",
  .addNode (.make "b" "take" .origin),
  .addNode (.make "c" "late" .origin),
  .register taker,
  .connect (.between "a" "n" "b" "n"),
  .connect { Edge.between "a" "n" "b" "n" with id := "again" }]

theorem rewiring_validates :
    Extending ⟨empty "g" "G", .empty⟩ rewiring ∧
      (edited ⟨empty "g" "G", .empty⟩ rewiring).graph.edges = [.between "a" "n" "b" "n"] ∧
      (edited ⟨empty "g" "G", .empty⟩ rewiring).graph.validate
        (edited ⟨empty "g" "G", .empty⟩ rewiring).registry = [.unknownNodeType "late"] := by
  have hextends : Extending ⟨empty "g" "G", .empty⟩ rewiring :=
    ⟨rfl, trivial, trivial, trivial, trivial, trivial, trivial, rfl, trivial, trivial, trivial⟩
  refine ⟨hextends, by decide +kernel, ?_⟩
  rw [(edited_validates "g" "G" .empty rewiring hextends).1]
  decide +kernel

end ScriptHost.Graph
