import ScriptHost.Graph.Check

/-!
# What the checks of edges mean

`Attached` is what an edge needs of the graph and the registry alone, `Enters` whether it brings data.
A check succeeds exactly when the edge is attached and brings no data where another edge already does.
-/

set_option autoImplicit false

namespace ScriptHost.Graph

structure Attached (g : Graph) (r : Registry) (e : Edge) : Prop where
  ends : ∃ source target outs ins output input, g.node? e.source = some source ∧
    g.node? e.target = some target ∧ r.portsOf source .output = .ok outs ∧
    Port.find? outs e.sourceHandle = some output ∧ r.portsOf target .input = .ok ins ∧
    Port.find? ins e.targetHandle = some input ∧ output.type.feeds input.type = true

def Enters (g : Graph) (r : Registry) (e : Edge) : Prop :=
  ∃ target ports, g.node? e.target = some target ∧ r.portsOf target .input = .ok ports ∧
    ∃ p ∈ ports, p.id = e.targetHandle ∧ p.type.isData = true

def Meet (x e : Edge) : Prop := x.target = e.target ∧ x.targetHandle = e.targetHandle

theorem nodeOrFault_ok (g : Graph) (id : String) (n : Node) :
    g.nodeOrFault id = .ok n ↔ g.node? id = some n := by
  unfold nodeOrFault
  cases g.node? id <;> simp

theorem portOf_ok (r : Registry) (n : Node) (dir : Direction) (port : String) (p : Port) :
    portOf r n dir port = .ok p ↔
      ∃ ports, r.portsOf n dir = .ok ports ∧ Port.find? ports port = some p := by
  unfold portOf
  cases r.portsOf n dir with
  | error e => simp
  | ok ports => cases hp : Port.find? ports port <;> simp [hp]

theorem checkEndpoints_iff (g : Graph) (r : Registry) (e : Edge) :
    g.checkEndpoints r e = .ok () ↔ Attached g r e := by
  constructor
  · intro h
    unfold checkEndpoints at h
    split at h
    · simp at h
    · next source hsource =>
      split at h
      · simp at h
      · next target htarget =>
        split at h
        · simp at h
        · next output houtput =>
          split at h
          · simp at h
          · next input hinput =>
            obtain ⟨outs, houts, hout⟩ := (portOf_ok r source .output _ output).mp houtput
            obtain ⟨ins, hins, hin⟩ := (portOf_ok r target .input _ input).mp hinput
            have hs := (nodeOrFault_ok g _ source).mp hsource
            have ht := (nodeOrFault_ok g _ target).mp htarget
            by_cases hfeeds : output.type.feeds input.type = true
            · exact ⟨source, target, outs, ins, output, input, hs, ht, houts, hout, hins, hin, hfeeds⟩
            · simp [hfeeds] at h
  · rintro ⟨source, target, outs, ins, output, input, hs, ht, houts, hout, hins, hin, hfeeds⟩
    have hsource := (nodeOrFault_ok g _ source).mpr hs
    have htarget := (nodeOrFault_ok g _ target).mpr ht
    have houtput := (portOf_ok r source .output _ output).mpr ⟨outs, houts, hout⟩
    have hinput := (portOf_ok r target .input _ input).mpr ⟨ins, hins, hin⟩
    simp only [checkEndpoints, hsource, htarget, houtput, hinput, hfeeds, if_true]

theorem taken_iff (e : Edge) (existing : List Edge) :
    (existing.any fun x => x.target == e.target && x.targetHandle == e.targetHandle) = true ↔
      ∃ x ∈ existing, Meet x e := by
  simp [Meet]

theorem checkSingleInput_iff {g : Graph} {r : Registry} {e : Edge} (he : Attached g r e)
    (existing : List Edge) :
    g.checkSingleInput r e existing = .ok () ↔ (Enters g r e → ∀ x ∈ existing, ¬ Meet x e) := by
  obtain ⟨-, target, -, ins, -, -, -, ht, -, -, hins, -, -⟩ := he.ends
  have htarget := (nodeOrFault_ok g _ target).mpr ht
  have hdata : (ins.any fun p => p.id == e.targetHandle && p.type.isData) = true ↔ Enters g r e := by
    constructor
    · intro h
      obtain ⟨p, hp, hid⟩ := List.any_eq_true.mp h
      exact ⟨target, ins, ht, hins, p, hp, by simpa using hid⟩
    · rintro ⟨target', ins', ht', hins', p, hp, hid, hdata⟩
      obtain rfl := Option.some.inj (ht.symm.trans ht')
      obtain rfl := Except.ok.inj (hins.symm.trans hins')
      exact List.any_eq_true.mpr ⟨p, hp, by simp [hid, hdata]⟩
  simp only [checkSingleInput, htarget, hins]
  by_cases henters : Enters g r e
  · rw [hdata.mpr henters, Bool.true_and]
    by_cases htaken : ∃ x ∈ existing, Meet x e
    · rw [if_pos ((taken_iff e existing).mpr htaken)]
      obtain ⟨x, hx, hmeet⟩ := htaken
      constructor
      · intro h
        simp at h
      · intro h
        exact absurd hmeet (h henters x hx)
    · rw [if_neg fun h => htaken ((taken_iff e existing).mp h)]
      exact iff_of_true rfl fun _ x hx hmeet => htaken ⟨x, hx, hmeet⟩
  · have hno : (ins.any fun p => p.id == e.targetHandle && p.type.isData) = false := by
      rw [Bool.eq_false_iff]
      exact fun h => henters (hdata.mp h)
    rw [hno, Bool.false_and, if_neg Bool.false_ne_true]
    exact iff_of_true rfl fun h => absurd h henters

/-- An edge may join others exactly when it is attached and shares no data input with one of them. -/
theorem checkEdge_iff (g : Graph) (r : Registry) (e : Edge) (existing : List Edge) :
    g.checkEdge r e existing = .ok () ↔
      Attached g r e ∧ (Enters g r e → ∀ x ∈ existing, ¬ Meet x e) := by
  unfold checkEdge
  by_cases he : Attached g r e
  · rw [(checkEndpoints_iff g r e).mpr he]
    simp only [he, true_and]
    exact checkSingleInput_iff he existing
  · cases hcheck : g.checkEndpoints r e with
    | error fault => simp [he]
    | ok u => exact absurd ((checkEndpoints_iff g r e).mp hcheck) he

theorem edgeFaults_nil (g : Graph) (r : Registry) (earlier rest : List Edge) :
    g.edgeFaults r earlier rest = [] ↔ (∀ e ∈ rest, Attached g r e) ∧
      (∀ e ∈ rest, Enters g r e → ∀ x ∈ earlier, ¬ Meet x e) ∧
      rest.Pairwise fun x e => Enters g r e → ¬ Meet x e := by
  induction rest generalizing earlier with
  | nil => simp [edgeFaults]
  | cons e rest ih =>
    simp only [edgeFaults]
    cases hcheck : g.checkEdge r e earlier with
    | error fault =>
      have hnot : ¬ (Attached g r e ∧ (Enters g r e → ∀ x ∈ earlier, ¬ Meet x e)) := by
        rw [← checkEdge_iff, hcheck]
        simp
      simp only [List.cons_ne_nil, false_iff]
      rintro ⟨hattached, hearlier, -⟩
      exact hnot ⟨hattached e List.mem_cons_self, hearlier e List.mem_cons_self⟩
    | ok u =>
      obtain ⟨hattached, hearlier⟩ := (checkEdge_iff g r e earlier).mp hcheck
      simp only [ih, List.forall_mem_cons, List.pairwise_cons, List.mem_append, List.mem_singleton]
      constructor
      · rintro ⟨hrest, hbefore, hpairs⟩
        refine ⟨⟨hattached, hrest⟩, ⟨hearlier, ?_⟩, ?_, hpairs⟩
        · exact fun x hx hin y hy => hbefore x hx hin y (.inl hy)
        · exact fun x hx hin => hbefore x hx hin e (.inr rfl)
      · rintro ⟨⟨-, hrest⟩, ⟨-, hbefore⟩, hfirst, hpairs⟩
        refine ⟨hrest, ?_, hpairs⟩
        rintro x hx hin y (hy | rfl)
        · exact hbefore x hx hin y hy
        · exact hfirst x hx hin

end ScriptHost.Graph
