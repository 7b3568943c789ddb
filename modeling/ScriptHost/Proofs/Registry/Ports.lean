import ScriptHost.Proofs.Registry.Builtins

/-!
# The ports of a placed node

The registry answers the ports of a placed node from the type it holds, and a script node's contract
answers them from base ports of its own.  Both lists are merged by the same rule, which keeps the ports
it starts from in front and takes no id twice.  That the two starts agree is not in the rule: it holds
because the palette's script type has the base ports and no change of the registry touches it.
-/

set_option autoImplicit false

namespace ScriptHost

namespace Port

@[simp] theorem merge_cons (base : List Port) (p : Port) (rest : List Port) :
    merge base (p :: rest) = merge (if base.any (·.id == p.id) then base else base ++ [p]) rest := rfl

theorem merge_prefix (base custom : List Port) : base <+: merge base custom := by
  induction custom generalizing base with
  | nil => exact List.prefix_refl base
  | cons p rest ih =>
    rw [merge_cons]
    split
    · exact ih base
    · exact (List.prefix_append base [p]).trans (ih (base ++ [p]))

theorem merge_nodup {base : List Port} (h : (base.map (·.id)).Nodup) (custom : List Port) :
    ((merge base custom).map (·.id)).Nodup := by
  induction custom generalizing base with
  | nil => exact h
  | cons p rest ih =>
    rw [merge_cons]
    split
    · exact ih h
    · next hnew =>
      have hfree : p.id ∉ base.map (·.id) := by simpa using hnew
      apply ih
      rw [List.map_append]
      exact h.append (List.nodup_singleton _) (by simpa using hfree)

end Port

theorem Json.isNull_iff (j : Json) : j.isNull = true ↔ j = .null := by
  cases j <;> simp [Json.isNull]

namespace ScriptNode

def basePorts : Direction → List Port
  -- the ports of a script node without data, as its contract has them
  | .input => baseInputs
  | .output => baseOutputs

def mergedPorts (d : ScriptNode) : Direction → List Port
  | .input => d.mergedInputs
  | .output => d.mergedOutputs

def customPorts (d : ScriptNode) : Direction → List Port
  | .input => d.customInputs
  | .output => d.customOutputs

theorem mergedPorts_eq (d : ScriptNode) (dir : Direction) :
    d.mergedPorts dir = Port.merge (basePorts dir) (d.customPorts dir) := by
  cases dir <;> rfl

theorem script_ports (dir : Direction) : Palette.script.ports dir = basePorts dir := by
  cases dir <;> rfl

theorem ofNode_null {n : Node} (h : n.data = .null) : ofNode n = .ok none := by
  rw [ofNode, h]
  rfl

theorem ofNode_read {n : Node} (h : n.data ≠ .null) {d : ScriptNode} (hd : decode n.data = .ok d) :
    ofNode n = .ok (some d) := by
  rw [ofNode, if_neg (mt n.data.isNull_iff.mp h)]
  simp only [hd]

theorem ofNode_unread {n : Node} (h : n.data ≠ .null) {e : DecodeError}
    (he : decode n.data = .error e) : ofNode n = .error (.invalidNodeData n.id e.message) := by
  rw [ofNode, if_neg (mt n.data.isNull_iff.mp h)]
  simp only [he]

end ScriptNode

theorem NodeType.ports_nodup {t : NodeType} (h : t.PortsDistinct) (dir : Direction) :
    ((t.ports dir).map (·.id)).Nodup := by
  rw [PortsDistinct, List.map_append] at h
  cases dir with
  | input => exact h.of_append_left
  | output => exact h.of_append_right

namespace Registry

theorem portsOf_plain {r : Registry} {n : Node} {t : NodeType} (h : r.find? n.typeId = some t)
    (hplain : t.id ≠ scriptTypeId) (dir : Direction) : r.portsOf n dir = .ok (t.ports dir) := by
  have hid : (t.id == scriptTypeId) = false := by simpa using hplain
  simp only [portsOf, h, hid]
  rfl

/-- A node of the script type has the ports of the type as this registry holds it, and its own. -/
theorem portsOf_script {r : Registry} {n : Node} {t : NodeType} (h : r.find? n.typeId = some t)
    (hscript : t.id = scriptTypeId) (dir : Direction) :
    r.portsOf n dir = (ScriptNode.ofNode n).map fun found =>
      Port.merge (t.ports dir) (found.elim [] (·.customPorts dir)) := by
  have hid : (t.id == scriptTypeId) = true := by simpa using hscript
  simp only [portsOf, h, hid, if_true]
  cases ScriptNode.ofNode n with
  | error fault => rfl
  | ok found =>
    cases found with
    | none => rfl
    | some d => cases dir <;> rfl

/-- The two ways a node gets ports. -/
theorem portsOf_ends {r : Registry} {n : Node} {dir : Direction} {ports : List Port}
    (h : r.portsOf n dir = .ok ports) :
    ∃ t custom, r.find? n.typeId = some t ∧ ports = Port.merge (t.ports dir) custom := by
  cases hfind : r.find? n.typeId with
  | none => simp [portsOf, hfind] at h
  | some t =>
    by_cases hscript : t.id = scriptTypeId
    · rw [portsOf_script hfind hscript] at h
      cases hnode : ScriptNode.ofNode n with
      | error fault => simp [hnode, Except.map] at h
      | ok found =>
        rw [hnode] at h
        exact ⟨t, _, rfl, (Except.ok.inj h).symm⟩
    · rw [portsOf_plain hfind hscript] at h
      exact ⟨t, [], rfl, (Except.ok.inj h).symm⟩

theorem portsOf_distinct {r : Registry} (h : Kept r) {n : Node} {dir : Direction} {ports : List Port}
    (hports : r.portsOf n dir = .ok ports) :
    (ports.map (·.id)).Nodup ∧ ∃ t, r.find? n.typeId = some t ∧ t.ports dir <+: ports := by
  obtain ⟨t, custom, hfind, rfl⟩ := portsOf_ends hports
  have hdistinct := NodeType.ports_nodup (h.distinct n.typeId t hfind) dir
  exact ⟨Port.merge_nodup hdistinct custom, t, hfind, Port.merge_prefix (t.ports dir) custom⟩

theorem portsOf_blind {r : Registry} (h : Kept r) {n : Node} (hplain : n.typeId ≠ scriptTypeId)
    (data : Json) (dir : Direction) : r.portsOf { n with data } dir = r.portsOf n dir := by
  cases hfind : r.find? n.typeId with
  | none => simp only [portsOf, hfind]
  | some t =>
    have hid : t.id ≠ scriptTypeId := by
      rw [h.named n.typeId t hfind]
      exact hplain
    have hfind' : r.find? { n with data }.typeId = some t := hfind
    rw [portsOf_plain hfind hid, portsOf_plain hfind' hid]

theorem find_script (changes : List Change) :
    (changed seeded changes).find? scriptTypeId = some Palette.script := by
  have hstart : Kept seeded := opened_kept .builtins
  have hseeded : Guarded seeded.all := ⟨[], by rw [List.append_nil]; exact opened_all .builtins, by simp⟩
  have hguarded := changed_guarded hstart hseeded changes
  have hscript : Palette.script ∈ palette := List.mem_append_right _ (List.mem_singleton_self _)
  exact (mem_all (changed_kept hstart changes) Palette.script).mp
    ((builtin_iff hguarded Palette.script).mpr hscript).1

/-- After any changes a script node has the base ports when it has no data, the ports of its contract
when its data can be read, and otherwise none in either direction.  Whatever the registry was opened
with, the ports of any node have distinct ids and start with those of its type, and only a script
node's depend on its data. -/
theorem changed_ports (o : Opening) (changes : List Change) (n : Node) :
    let r := changed (opened o) changes
    (o = .builtins → n.typeId = scriptTypeId → ∀ dir,
      (n.data = .null → r.portsOf n dir = .ok (ScriptNode.basePorts dir)) ∧
      (n.data ≠ .null → ∀ d, ScriptNode.decode n.data = .ok d →
        r.portsOf n dir = .ok (d.mergedPorts dir)) ∧
      (n.data ≠ .null → ∀ e, ScriptNode.decode n.data = .error e →
        r.portsOf n dir = .error (.invalidNodeData n.id e.message))) ∧
      (∀ dir ports, r.portsOf n dir = .ok ports →
        (ports.map (·.id)).Nodup ∧ ∃ t, r.find? n.typeId = some t ∧ t.ports dir <+: ports) ∧
      (n.typeId ≠ scriptTypeId → ∀ data dir, r.portsOf { n with data } dir = r.portsOf n dir) := by
  intro r
  have hkept : Kept r := changed_kept (opened_kept o) changes
  refine ⟨?_, fun dir ports => portsOf_distinct hkept, portsOf_blind hkept⟩
  rintro rfl htype dir
  have hfind : r.find? n.typeId = some Palette.script := by
    rw [htype]
    exact find_script changes
  have hports := portsOf_script hfind rfl dir
  rw [ScriptNode.script_ports] at hports
  refine ⟨?_, ?_, ?_⟩
  · intro hnull
    rw [hports, ScriptNode.ofNode_null hnull]
    rfl
  · intro hdata d hd
    rw [hports, ScriptNode.ofNode_read hdata hd, d.mergedPorts_eq]
    rfl
  · intro hdata e he
    rw [hports, ScriptNode.ofNode_unread hdata he]
    rfl

-- ports that clash with a base port or with each other are left out
example :
    let port (id : String) : Json := .obj [("id", .str id), ("type", .str "number")]
    let n : Node := { (default : Node) with
      typeId := scriptTypeId, data := .obj [("customInputs", .arr [port "in", port "a", port "a"])] }
    (seeded.portsOf n .input).toOption.map (·.map (·.id)) = some ["in", "a"] := by
  decide +kernel

end Registry

end ScriptHost
