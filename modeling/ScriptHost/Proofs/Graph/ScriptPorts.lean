import ScriptHost.Proofs.Registry.Ports

/-!
# Distinct ports and merged ports

A script node is checked for ports that share an id, over both directions and with the base ports in front.
Merging goes by direction and drops a custom port instead of refusing it: it keeps the first port of every
id that the schema does not use.  A node that passes the check loses no port.
-/

set_option autoImplicit false

namespace ScriptHost

namespace Port

theorem firstRepeatAfter_some (seen : List String) (ports : List Port) (p : Port) :
    firstRepeatAfter seen ports = some p ↔ ∃ before after, ports = before ++ p :: after ∧
      (∀ q ∈ before, q.id ∉ seen) ∧ (before.map (·.id)).Nodup ∧
      (p.id ∈ seen ∨ p.id ∈ before.map (·.id)) := by
  induction ports generalizing seen with
  | nil => simp [firstRepeatAfter]
  | cons q rest ih =>
    rw [firstRepeatAfter]
    by_cases hq : q.id ∈ seen
    · rw [if_pos hq]
      constructor
      · intro h
        obtain rfl := Option.some.inj h
        exact ⟨[], rest, rfl, by simp, List.nodup_nil, .inl hq⟩
      · rintro ⟨before, after, hsplit, hseen, -, -⟩
        cases before with
        | nil => rw [(List.cons.inj hsplit).1]
        | cons b before =>
          obtain rfl := (List.cons.inj hsplit).1
          exact absurd hq (hseen q List.mem_cons_self)
    · rw [if_neg hq, ih]
      constructor
      · rintro ⟨before, after, rfl, hseen, hnodup, hp⟩
        have hapart : q.id ∉ before.map (·.id) := by
          intro hmem
          obtain ⟨b, hb, hid⟩ := List.mem_map.mp hmem
          exact hseen b hb (hid ▸ List.mem_cons_self)
        refine ⟨q :: before, after, rfl, ?_, List.nodup_cons.mpr ⟨hapart, hnodup⟩, ?_⟩
        · exact List.forall_mem_cons.mpr ⟨hq, fun b hb hmem => hseen b hb (List.mem_cons_of_mem _ hmem)⟩
        · grind
      · rintro ⟨before, after, hsplit, hseen, hnodup, hp⟩
        cases before with
        | nil =>
          obtain rfl := (List.cons.inj hsplit).1
          exact absurd (hp.resolve_right List.not_mem_nil) hq
        | cons b before =>
          obtain ⟨rfl, rfl⟩ := List.cons.inj hsplit
          obtain ⟨hapart, hnodup⟩ := List.nodup_cons.mp hnodup
          refine ⟨before, after, rfl, fun c hc => ?_, hnodup, by grind⟩
          have hne : c.id ≠ q.id := fun hid => hapart (List.mem_map.mpr ⟨c, hc, hid⟩)
          exact List.not_mem_cons_of_ne_of_not_mem hne (hseen c (List.mem_cons_of_mem _ hc))

theorem checkDistinct_error (owner : String) (ports : List Port) (fault : GraphFault) :
    checkDistinct owner ports = .error fault ↔ ∃ before p after, ports = before ++ p :: after ∧
      (before.map (·.id)).Nodup ∧ p.id ∈ before.map (·.id) ∧ fault = .duplicatePort owner p.id := by
  have hrepeat : ∀ p, firstRepeat? ports = some p ↔ ∃ before after, ports = before ++ p :: after ∧
      (before.map (·.id)).Nodup ∧ p.id ∈ before.map (·.id) := by
    intro p
    rw [firstRepeat?, firstRepeatAfter_some]
    simp only [List.not_mem_nil, not_false_eq_true, implies_true, true_and, false_or]
  unfold checkDistinct
  constructor
  · intro h
    cases hp : firstRepeat? ports with
    | none => simp [hp] at h
    | some p =>
      obtain ⟨before, after, hsplit, hnodup, hmem⟩ := (hrepeat p).mp hp
      rw [hp] at h
      exact ⟨before, p, after, hsplit, hnodup, hmem, (Except.error.inj h).symm⟩
  · rintro ⟨before, p, after, hsplit, hnodup, hmem, rfl⟩
    rw [(hrepeat p).mpr ⟨before, after, hsplit, hnodup, hmem⟩]

def newcomers (used : List String) (custom : List Port) : List Port :=
  (custom.zipIdx.filter fun e => e.1.id ∉ used ∧ e.1.id ∉ (custom.take e.2).map (·.id)).map (·.1)

theorem newcomers_cons (used : List String) (p : Port) (rest : List Port) :
    newcomers used (p :: rest) =
      if p.id ∈ used then newcomers used rest else p :: newcomers (used ++ [p.id]) rest := by
  have hrest : ∀ kept : Port × ℕ → Bool, ((rest.zipIdx 1).filter kept).map (·.1) =
      (rest.zipIdx.filter fun e => kept (e.1, e.2 + 1)).map (·.1) := by
    intro kept
    rw [List.zipIdx_succ, List.filter_map, List.map_map]
    rfl
  unfold newcomers
  rw [List.zipIdx_cons, Nat.zero_add]
  by_cases hp : p.id ∈ used
  · rw [if_pos hp, List.filter_cons_of_neg (by simp [hp]), hrest]
    congr 2
    funext e
    -- what is not in use is not the id of the first port either
    grind
  · rw [if_neg hp, List.filter_cons_of_pos (by simp [hp]), List.map_cons, hrest]
    congr 3
    funext e
    grind

/-- Merged ports are those given and the newcomers among the others. -/
theorem merge_eq (base custom : List Port) :
    merge base custom = base ++ newcomers (base.map (·.id)) custom := by
  induction custom generalizing base with
  | nil => exact (List.append_nil base).symm
  | cons p rest ih =>
    have hused : base.any (·.id == p.id) = true ↔ p.id ∈ base.map (·.id) := by simp
    rw [merge_cons, newcomers_cons]
    by_cases hp : p.id ∈ base.map (·.id)
    · rw [if_pos (hused.mpr hp), if_pos hp, ih]
    · rw [if_neg (mt hused.mp hp), if_neg hp, ih, List.map_append, List.append_assoc]
      rfl

/-- Ports with ids of their own are all newcomers. -/
theorem newcomers_all {used : List String} {custom : List Port}
    (h : (used ++ custom.map (·.id)).Nodup) : newcomers used custom = custom := by
  induction custom generalizing used with
  | nil => rfl
  | cons p rest ih =>
    have hp : p.id ∉ used := by
      intro hmem
      exact List.disjoint_of_nodup_append h hmem List.mem_cons_self
    have hrest : (used ++ [p.id] ++ rest.map (·.id)).Nodup := by
      rwa [List.append_assoc]
    rw [newcomers_cons, if_neg hp, ih hrest]

end Port

namespace ScriptNode

def allPorts (d : ScriptNode) : List Port :=
  baseInputs ++ baseOutputs ++ d.customInputs ++ d.customOutputs

def portsOver (d : ScriptNode) : Direction → List Port → List Port
  -- a node's ports of one direction over those of a schema
  | .input => d.inputsOver
  | .output => d.outputsOver

theorem portsOver_eq (d : ScriptNode) (dir : Direction) (schema : List Port) :
    d.portsOver dir schema = Port.merge schema (d.customPorts dir) := by
  cases dir <;> rfl

/-- Within one direction ids are distinct when they are over both. -/
theorem direction_nodup {d : ScriptNode} (h : (d.allPorts.map (·.id)).Nodup) (dir : Direction) :
    ((basePorts dir).map (·.id) ++ (d.customPorts dir).map (·.id)).Nodup := by
  have hids : d.allPorts.map (·.id) =
      (["in"] ++ ["out"] ++ d.customInputs.map (·.id)) ++ d.customOutputs.map (·.id) := by
    simp [allPorts, baseInputs, baseOutputs, Port.flow, Port.make]
  rw [hids] at h
  refine h.sublist ?_
  cases dir with
  | input =>
    refine List.Sublist.trans ?_ (List.sublist_append_left _ _)
    exact (List.sublist_append_left ["in"] ["out"]).append_right _
  | output =>
    refine List.Sublist.append_right ?_ _
    exact (List.sublist_append_right ["in"] ["out"]).trans (List.sublist_append_left _ _)

/-- The check passes exactly when no two ports have one id, and otherwise names the first port whose id came
before it.  Over any schema a direction has the ports of the schema and then the first custom port of every
id that the schema does not use, so its ids are distinct when those of the schema are; and a node that
passes the check has the base ports and all its custom ports. -/
theorem check_fits_merging (d : ScriptNode) :
    (d.check = .ok () ↔ (d.allPorts.map (·.id)).Nodup) ∧
    (∀ fault, d.check = .error fault ↔ ∃ before p after, d.allPorts = before ++ p :: after ∧
      (before.map (·.id)).Nodup ∧ p.id ∈ before.map (·.id) ∧
      fault = .duplicatePort "script node" p.id) ∧
    (∀ dir schema, d.portsOver dir schema =
      schema ++ Port.newcomers (schema.map (·.id)) (d.customPorts dir)) ∧
    (∀ dir schema, (schema.map (·.id)).Nodup → ((d.portsOver dir schema).map (·.id)).Nodup) ∧
    (∀ dir, d.mergedPorts dir = d.portsOver dir (basePorts dir) ∧
      ((d.mergedPorts dir).map (·.id)).Nodup) ∧
    (d.check = .ok () → ∀ dir, d.mergedPorts dir = basePorts dir ++ d.customPorts dir) := by
  have hcheck : d.check = .ok () ↔ (d.allPorts.map (·.id)).Nodup := Port.checkDistinct_iff _ _
  have hover : ∀ dir schema, d.portsOver dir schema =
      schema ++ Port.newcomers (schema.map (·.id)) (d.customPorts dir) := by
    intro dir schema
    rw [portsOver_eq, Port.merge_eq]
  have hdistinct : ∀ dir schema, (schema.map (·.id)).Nodup →
      ((d.portsOver dir schema).map (·.id)).Nodup := by
    intro dir schema h
    rw [portsOver_eq]
    exact Port.merge_nodup h _
  have hmerged : ∀ dir, d.mergedPorts dir = d.portsOver dir (basePorts dir) := by
    intro dir
    cases dir <;> rfl
  refine ⟨hcheck, Port.checkDistinct_error _ _, hover, hdistinct, ?_, ?_⟩
  · intro dir
    refine ⟨hmerged dir, ?_⟩
    rw [hmerged]
    exact hdistinct dir _ (by cases dir <;> decide)
  · intro h dir
    rw [hmerged, hover, Port.newcomers_all (direction_nodup (hcheck.mp h) dir)]

-- an input that is named like the base output is refused, but kept where inputs are merged
example :
    let d := (ofCode "").withInput (.flow "out" "") |>.withInput (.flow "in" "")
    d.check = .error (.duplicatePort "script node" "out") ∧
      d.mergedInputs.map (·.id) = ["in", "out"] := by
  decide

end ScriptNode

end ScriptHost
