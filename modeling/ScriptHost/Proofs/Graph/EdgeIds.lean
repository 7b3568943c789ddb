import ScriptHost.Proofs.Graph.Integrity
import ScriptHost.Proofs.Registry.Ports

/-!
# Ids made from the ends of an edge

`Edge.between` joins the four names of its ends with dashes.  A name may hold dashes itself, so two edges
can come to one id: the join is read back only when it is known how many dashes belong to each name.
This module says which edges share an id and when `Graph.connect` refuses an edge because of it.
-/

set_option autoImplicit false

namespace ScriptHost

def dashes (s : String) : Nat := s.toList.count '-'

/-- A dash ends the same part of two texts when as many dashes come before it. -/
theorem cut_at_dash {a b c d : List Char} (h : a ++ '-' :: c = b ++ '-' :: d)
    (hcount : a.count '-' = b.count '-') : a = b ∧ c = d := by
  induction a generalizing b with
  | nil =>
    cases b with
    | nil => exact ⟨rfl, (List.cons.inj h).2⟩
    | cons y rest =>
      obtain ⟨rfl, -⟩ := List.cons.inj h
      simp at hcount
  | cons x tail ih =>
    cases b with
    | nil =>
      obtain ⟨rfl, -⟩ := List.cons.inj h
      simp at hcount
    | cons y rest =>
      obtain ⟨rfl, hrest⟩ := List.cons.inj h
      have htail : tail.count '-' = rest.count '-' := by
        simpa [List.count_cons] using hcount
      obtain ⟨rfl, heq⟩ := ih hrest htail
      exact ⟨rfl, heq⟩

namespace Edge

def IsDerived (e : Edge) : Prop := e = between e.source e.sourceHandle e.target e.targetHandle

/-- Two edges whose names have their dashes in the same places; the fourth name then has as many as the
rest of the id. -/
structure Aligned (e f : Edge) : Prop where
  source : dashes e.source = dashes f.source
  sourceHandle : dashes e.sourceHandle = dashes f.sourceHandle
  target : dashes e.target = dashes f.target

theorem between_derived (s h t k : String) : (between s h t k).IsDerived := rfl

theorem between_text (s h t k : String) : (between s h t k).id.toList =
    'e' :: '-' :: (s.toList ++ '-' :: (h.toList ++ '-' :: (t.toList ++ '-' :: k.toList))) := by
  simp [between, String.toList_append]

theorem eq_of_aligned {e f : Edge} (he : e.IsDerived) (hf : f.IsDerived) (hid : e.id = f.id)
    (h : Aligned e f) : e = f := by
  have htext := congrArg String.toList hid
  rw [he, hf, between_text, between_text] at htext
  have hparts := (List.cons.inj (List.cons.inj htext).2).2
  obtain ⟨hsource, hparts⟩ := cut_at_dash hparts h.source
  obtain ⟨hsourceHandle, hparts⟩ := cut_at_dash hparts h.sourceHandle
  obtain ⟨htarget, htargetHandle⟩ := cut_at_dash hparts h.target
  rw [he, hf, String.toList_injective hsource, String.toList_injective hsourceHandle,
    String.toList_injective htarget, String.toList_injective htargetHandle]

/-- Of two edges with one id, the ends are the same exactly when the dashes are. -/
theorem same_ends_iff {e : Edge} (he : e.IsDerived) {s h t k : String}
    (hid : e.id = (between s h t k).id) : Aligned e (between s h t k) ↔
      e.source = s ∧ e.sourceHandle = h ∧ e.target = t ∧ e.targetHandle = k := by
  constructor
  · intro haligned
    rw [eq_of_aligned he (between_derived s h t k) hid haligned]
    exact ⟨rfl, rfl, rfl, rfl⟩
  · rintro ⟨rfl, rfl, rfl, -⟩
    exact ⟨rfl, rfl, rfl⟩

end Edge

def GraphFault.isDuplicateEdge : GraphFault → Bool
  | .duplicateEdge _ => true
  | _ => false

namespace Graph

theorem nodeOrFault_fault {g : Graph} {id : String} {fault : GraphFault}
    (h : g.nodeOrFault id = .error fault) : fault.isDuplicateEdge = false := by
  unfold nodeOrFault at h
  cases hnode : g.node? id <;> rw [hnode] at h <;> cases h
  rfl

theorem portsOf_fault {r : Registry} {n : Node} {dir : Direction} {fault : GraphFault}
    (h : r.portsOf n dir = .error fault) : fault.isDuplicateEdge = false := by
  cases hfind : r.find? n.typeId with
  | none =>
    simp only [Registry.portsOf, hfind] at h
    cases h
    rfl
  | some t =>
    by_cases hscript : t.id = scriptTypeId
    · rw [Registry.portsOf_script hfind hscript, ScriptNode.ofNode] at h
      split at h
      · cases h
      · split at h <;> cases h
        rfl
    · rw [Registry.portsOf_plain hfind hscript] at h
      cases h

theorem portOf_fault {r : Registry} {n : Node} {dir : Direction} {port : String} {fault : GraphFault}
    (h : portOf r n dir port = .error fault) : fault.isDuplicateEdge = false := by
  unfold portOf at h
  split at h
  · next found hports =>
    cases h
    exact portsOf_fault hports
  · split at h <;> cases h
    rfl

theorem checkEndpoints_fault {g : Graph} {r : Registry} {e : Edge} {fault : GraphFault}
    (h : g.checkEndpoints r e = .error fault) : fault.isDuplicateEdge = false := by
  unfold checkEndpoints at h
  split at h
  · next found hsource => cases h; exact nodeOrFault_fault hsource
  split at h
  · next found htarget => cases h; exact nodeOrFault_fault htarget
  split at h
  · next found houtput => cases h; exact portOf_fault houtput
  split at h
  · next found hinput => cases h; exact portOf_fault hinput
  split at h <;> cases h
  rfl

theorem checkEdge_fault {g : Graph} {r : Registry} {e : Edge} {existing : List Edge}
    {fault : GraphFault} (h : g.checkEdge r e existing = .error fault) :
    fault.isDuplicateEdge = false := by
  unfold checkEdge at h
  split at h
  · next found hends => cases h; exact checkEndpoints_fault hends
  unfold checkSingleInput at h
  split at h
  · next found htarget => cases h; exact nodeOrFault_fault htarget
  split at h
  · next found hports => cases h; exact portsOf_fault hports
  dsimp only at h
  split at h <;> cases h
  rfl

theorem connect_duplicate_iff (g : Graph) (r : Registry) (e : Edge) :
    (∃ id, g.connect r e = .error (.duplicateEdge id)) ↔ ∃ x ∈ g.edges, x.id = e.id := by
  rw [← List.mem_map]
  constructor
  · rintro ⟨id, h⟩
    rcases connect_ends g r e with ⟨hused, -⟩ | ⟨-, ⟨fault, hcheck, hconnect⟩ | ⟨-, hconnect⟩⟩
    · exact hused
    · rw [hconnect] at h
      cases h
      have := checkEdge_fault hcheck
      cases this
    · rw [hconnect] at h
      cases h
  · intro hused
    exact ⟨e.id, connect_duplicate hused r⟩

def Edit.Derives : Edit → Prop
  | .connect e => e.IsDerived
  | _ => True

structure DerivedIds (g : Graph) : Prop where
  derived : ∀ e ∈ g.edges, e.IsDerived
  distinct : (g.edges.map (·.id)).Nodup

theorem empty_derivedIds (id name : String) : DerivedIds (empty id name) where
  derived _ he := absurd he List.not_mem_nil
  distinct := List.nodup_nil

theorem DerivedIds.fewer {g g' : Graph} (h : DerivedIds g) (hedges : g'.edges.Sublist g.edges) :
    DerivedIds g' where
  derived e he := h.derived e (hedges.subset he)
  distinct := h.distinct.sublist (hedges.map _)

theorem connect_derivedIds {g : Graph} (h : DerivedIds g) (r : Registry) {e : Edge}
    (he : e.IsDerived) : DerivedIds ((g.connect r e).toOption.getD g) := by
  rcases connect_cases g r e with heq | ⟨hnew, -, heq⟩
  · rw [heq]
    exact h
  · have hunused : e.id ∉ g.edges.map (·.id) := by
      rw [← edge_used, hnew]
      exact Bool.false_ne_true
    rw [heq]
    refine ⟨?_, ?_⟩
    · intro x hx
      rcases List.mem_append.mp hx with hx | hx
      · exact h.derived x hx
      · rw [List.mem_singleton.mp hx]
        exact he
    · show ((g.edges ++ [e]).map (·.id)).Nodup
      rw [List.map_append]
      refine h.distinct.append (List.nodup_singleton _) ?_
      intro id hold hid
      rw [List.mem_singleton.mp hid] at hold
      exact hunused hold

theorem edit_derivedIds {d : Draft} (h : DerivedIds d.graph) {change : Edit} (hderives : change.Derives) :
    DerivedIds (edit d change).graph := by
  cases change with
  | addNode n =>
    rcases addNode_cases d.graph n with heq | ⟨-, heq⟩ <;>
      exact h.fewer (by simp only [edit, heq]; exact List.Sublist.refl _)
  | removeNode id =>
    rcases removeNode_cases d.graph id with heq | heq
    · exact h.fewer (by simp only [edit, heq]; exact List.Sublist.refl _)
    · exact h.fewer (by simp only [edit, heq]; exact List.filter_sublist)
  | connect e => exact connect_derivedIds h d.registry hderives
  | disconnect id =>
    rcases disconnect_cases d.graph id with heq | heq
    · exact h.fewer (by simp only [edit, heq]; exact List.Sublist.refl _)
    · exact h.fewer (by simp only [edit, heq]; exact List.eraseP_sublist)
  | setData id data =>
    refine h.fewer ?_
    simp only [edit, setData]
    cases d.graph.node? id <;> exact List.Sublist.refl _
  | setType id typeId =>
    refine h.fewer ?_
    simp only [edit, setType]
    cases d.graph.node? id <;> exact List.Sublist.refl _
  | register t => exact h
  | unregister id => exact h
  | teardown => exact h

theorem edited_derivedIds {d : Draft} (h : DerivedIds d.graph) {edits : List Edit}
    (hderives : ∀ change ∈ edits, change.Derives) : DerivedIds (edited d edits).graph := by
  induction edits generalizing d with
  | nil => exact h
  | cons change rest ih =>
    have hstep := edit_derivedIds h (hderives change List.mem_cons_self)
    exact ih hstep fun later hlater => hderives later (List.mem_cons_of_mem _ hlater)

/-- Whatever is done to a graph whose edges are all made by `between`: ids stay distinct, another such
edge is a duplicate exactly when its id is there, and the edge that has it has the same ends exactly when
its names have the same dashes. -/
theorem duplicates_among_derived (id name : String) (r : Registry) (edits : List Edit)
    (hderives : ∀ change ∈ edits, change.Derives) :
    let d := edited ⟨empty id name, r⟩ edits
    (∀ x ∈ d.graph.edges, x.IsDerived) ∧ (d.graph.edges.map (·.id)).Nodup ∧
      ∀ s h t k,
        ((∃ used, d.graph.connect d.registry (.between s h t k) = .error (.duplicateEdge used)) ↔
          ∃ x ∈ d.graph.edges, x.id = (Edge.between s h t k).id) ∧
        ∀ x ∈ d.graph.edges, x.id = (Edge.between s h t k).id →
          (x.Aligned (.between s h t k) ↔
            x.source = s ∧ x.sourceHandle = h ∧ x.target = t ∧ x.targetHandle = k) := by
  intro d
  have hids : DerivedIds d.graph := edited_derivedIds (empty_derivedIds id name) hderives
  refine ⟨hids.derived, hids.distinct, fun s h t k => ⟨?_, ?_⟩⟩
  · exact connect_duplicate_iff d.graph d.registry (.between s h t k)
  · intro x hx hid
    exact Edge.same_ends_iff (hids.derived x hx) hid

def hyphenated : List Edit := [
  -- four nodes, two of them with the name of a handle inside their own, and one edge
  .addNode (.make "a" "on-start" .origin),
  .addNode (.make "a-out-b" "on-start" .origin),
  .addNode (.make "b-out-c" "log" .origin),
  .addNode (.make "c" "log" .origin),
  .connect (.between "a" "out" "b-out-c" "in")]

theorem hyphenated_derives : ∀ change ∈ hyphenated, change.Derives := by
  intro change hchange
  simp only [hyphenated, List.mem_cons, List.not_mem_nil, or_false] at hchange
  rcases hchange with rfl | rfl | rfl | rfl | rfl
  · trivial
  · trivial
  · trivial
  · trivial
  · rfl

/-- An edge that is not there, and with which the graph would still be valid, is refused. -/
theorem fitting_edge_refused :
    let d := edited ⟨empty "g" "G", .seeded⟩ hyphenated
    let e := Edge.between "a-out-b" "out" "c" "in"
    (∀ change ∈ hyphenated, change.Derives) ∧ (d.graph.appended e).validate d.registry = [] ∧
      (¬ ∃ x ∈ d.graph.edges, x.source = "a-out-b" ∧ x.sourceHandle = "out" ∧ x.target = "c" ∧
        x.targetHandle = "in") ∧
      d.graph.connect d.registry e = .error (.duplicateEdge "e-a-out-b-out-c-in") :=
  ⟨hyphenated_derives, by decide +kernel, by decide +kernel,
    connect_duplicate (by decide +kernel) .seeded⟩

/-- The edge that is there is a duplicate of itself; the other one with its id has other dashes. -/
theorem hyphenated_duplicates :
    let d := edited ⟨empty "g" "G", .seeded⟩ hyphenated
    (∀ change ∈ hyphenated, change.Derives) ∧
      (∃ used, d.graph.connect d.registry (.between "a" "out" "b-out-c" "in") =
        .error (.duplicateEdge used)) ∧
      (∃ used, d.graph.connect d.registry (.between "a-out-b" "out" "c" "in") =
        .error (.duplicateEdge used)) ∧
      ¬ (Edge.between "a" "out" "b-out-c" "in").Aligned (.between "a-out-b" "out" "c" "in") := by
  intro d
  have hids := (duplicates_among_derived "g" "G" .seeded hyphenated hyphenated_derives).2.2
  have hedges : d.graph.edges = [.between "a" "out" "b-out-c" "in"] := by decide +kernel
  have hmem : Edge.between "a" "out" "b-out-c" "in" ∈ d.graph.edges := by
    rw [hedges]
    exact List.mem_singleton_self _
  have hshared : (Edge.between "a" "out" "b-out-c" "in").id =
      (Edge.between "a-out-b" "out" "c" "in").id := by decide
  refine ⟨hyphenated_derives, (hids _ _ _ _).1.mpr ⟨_, hmem, rfl⟩,
    (hids _ _ _ _).1.mpr ⟨_, hmem, hshared⟩, ?_⟩
  intro haligned
  exact absurd (((hids _ _ _ _).2 _ hmem hshared).mp haligned).1 (by decide)

end Graph

end ScriptHost
