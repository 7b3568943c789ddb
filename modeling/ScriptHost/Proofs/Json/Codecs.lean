import ScriptHost.Panel
import ScriptHost.Proofs.Json.Records
import ScriptHost.Proofs.Registry.Ports

/-!
# Records that are kept

Ports, node types, edges, the data of script nodes and saved panels are written as JSON values and read
back the same, whatever their texts are and whichever of their optional fields are there.
-/

set_option autoImplicit false

namespace ScriptHost
open Fields

theorem PortType.decode_toJson (t : PortType) : PortType.decode t.toJson.sorted = .ok t := by
  cases t <;> rfl

theorem Category.decode_toJson (c : Category) : Category.decode c.toJson.sorted = .ok c := by
  cases c <;> rfl

namespace Port

theorem decode_toJson (p : Port) : Port.decode p.toJson.sorted = .ok p := by
  have hnames : ["id", "label", "type", "required"].Nodup := by decide
  obtain ⟨members, hsorted, hm⟩ := record_written [("id", some (.str p.id)),
    ("label", some (.str p.label)), ("type", some p.type.toJson), ("required", p.required.map .bool)] hnames
  have hid := text_reads hm "id" (s := p.id) (by simp)
  have hlabel := optional_reads hm "label" .string (j := .str p.label) (by simp) rfl ""
  have htype := required_reads hm "type" PortType.decode (j := p.type.toJson) (by simp) p.type.decode_toJson
  have hrequired := skipped_reads hm "required" .bool .bool (o := p.required) (by simp) (fun _ _ => rfl)
    fun _ _ => Json.noConfusion
  rw [toJson, hsorted]
  exact decode_reads (seq_reads (seq_reads (seq_reads (map_reads Port.mk hid) hlabel) htype) hrequired) _

theorem decode_listJson (ports : List Port) :
    Decoder.list Port.decode (Port.listJson ports).sorted = .ok ports :=
  Decoder.list_written fun p _ => p.decode_toJson

end Port

theorem Decoder.strings_written (texts : List String) :
    Decoder.list .string (Json.arr (texts.map .str)).sorted = .ok texts :=
  Decoder.list_written fun _ _ => rfl

theorem Edge.decode_toJson (e : Edge) : Edge.decode e.toJson.sorted = .ok e := by
  have hnames : ["id", "source", "sourceHandle", "target", "targetHandle"].Nodup := by decide
  obtain ⟨members, hsorted, hm⟩ := record_written [("id", some (.str e.id)), ("source", some (.str e.source)),
    ("sourceHandle", some (.str e.sourceHandle)), ("target", some (.str e.target)),
    ("targetHandle", some (.str e.targetHandle))] hnames
  have hid := text_reads hm "id" (s := e.id) (by simp)
  have hsource := text_reads hm "source" (s := e.source) (by simp)
  have hsourceHandle := text_reads hm "sourceHandle" (s := e.sourceHandle) (by simp)
  have htarget := text_reads hm "target" (s := e.target) (by simp)
  have htargetHandle := text_reads hm "targetHandle" (s := e.targetHandle) (by simp)
  rw [show e.toJson.sorted = .obj members from hsorted]
  exact decode_reads (seq_reads (seq_reads (seq_reads (seq_reads (map_reads Edge.mk hid) hsource)
    hsourceHandle) htarget) htargetHandle) _

theorem Panel.decode_toJson (p : Panel) : Panel.decode p.toJson.sorted = .ok p := by
  have hnames : ["id", "name", "code", "createdAt"].Nodup := by decide
  obtain ⟨members, hsorted, hm⟩ := record_written [("id", some (.str p.id)), ("name", some (.str p.name)),
    ("code", some (.str p.code)), ("createdAt", some (.int p.createdAt.toNat))] hnames
  have hid := text_reads hm "id" (s := p.id) (by simp)
  have hname := text_reads hm "name" (s := p.name) (by simp)
  have hcode := text_reads hm "code" (s := p.code) (by simp)
  have hread : Decoder.natural64 (.int p.createdAt.toNat) = .ok p.createdAt := by
    simp only [Decoder.natural64, Int.natCast_nonneg, Int.not_lt.mpr, if_false, Int.toNat_natCast,
      UInt64.ofNat_toNat]
  have hcreatedAt := required_reads hm "createdAt" .natural64 (j := .int p.createdAt.toNat) (by simp) hread
  rw [show p.toJson.sorted = .obj members from hsorted]
  exact decode_reads (seq_reads (seq_reads (seq_reads (map_reads Panel.mk hid) hname) hcode) hcreatedAt) _

theorem NodeType.decode_toJson (t : NodeType) : NodeType.decode t.toJson.sorted = .ok t := by
  have hnames : ["id", "name", "category", "description", "icon", "color", "inputs", "outputs", "behavior",
    "isCustom"].Nodup := by decide
  obtain ⟨members, hsorted, hm⟩ := record_written [("id", some (.str t.id)), ("name", some (.str t.name)),
    ("category", some t.category.toJson), ("description", some (.str t.description)),
    ("icon", some (.str t.icon)), ("color", some (.str t.color)), ("inputs", some (Port.listJson t.inputs)),
    ("outputs", some (Port.listJson t.outputs)), ("behavior", t.behavior.map .str),
    ("isCustom", t.custom.map .bool)] hnames
  have hid := text_reads hm "id" (s := t.id) (by simp)
  have hname := text_reads hm "name" (s := t.name) (by simp)
  have hcategory := required_reads hm "category" Category.decode (j := t.category.toJson) (by simp)
    t.category.decode_toJson
  have hdescription := optional_reads hm "description" .string (j := .str t.description) (by simp) rfl ""
  have hicon := optional_reads hm "icon" .string (j := .str t.icon) (by simp) rfl ""
  have hcolor := optional_reads hm "color" .string (j := .str t.color) (by simp) rfl ""
  have hinputs := optional_reads hm "inputs" _ (j := Port.listJson t.inputs) (by simp)
    (Port.decode_listJson t.inputs) []
  have houtputs := optional_reads hm "outputs" _ (j := Port.listJson t.outputs) (by simp)
    (Port.decode_listJson t.outputs) []
  have hbehavior := skipped_reads hm "behavior" .string .str (o := t.behavior) (by simp) (fun _ _ => rfl)
    fun _ _ => Json.noConfusion
  have hcustom := skipped_reads hm "isCustom" .bool .bool (o := t.custom) (by simp) (fun _ _ => rfl)
    fun _ _ => Json.noConfusion
  rw [toJson, hsorted]
  have htexts := seq_reads (seq_reads (seq_reads (map_reads NodeType.mk hid) hname) hcategory) hdescription
  have hports := seq_reads (seq_reads (seq_reads (seq_reads htexts hicon) hcolor) hinputs) houtputs
  exact decode_reads (seq_reads (seq_reads hports hbehavior) hcustom) _

namespace ScriptNode

theorem decode_toJson (d : ScriptNode) : ScriptNode.decode d.toJson.sorted = .ok d := by
  have hnames : ["code", "customInputs", "customOutputs", "listenSignals", "emitSignals"].Nodup := by decide
  obtain ⟨members, hsorted, hm⟩ := record_written [("code", some (.str d.code)),
    ("customInputs", some (Port.listJson d.customInputs)),
    ("customOutputs", some (Port.listJson d.customOutputs)),
    ("listenSignals", some (.arr (d.listenSignals.map .str))),
    ("emitSignals", some (.arr (d.emitSignals.map .str)))] hnames
  have hcode := optional_reads hm "code" .string (j := .str d.code) (by simp) rfl ""
  have hinputs := optional_reads hm "customInputs" _ (j := Port.listJson d.customInputs) (by simp)
    (Port.decode_listJson d.customInputs) []
  have houtputs := optional_reads hm "customOutputs" _ (j := Port.listJson d.customOutputs) (by simp)
    (Port.decode_listJson d.customOutputs) []
  have hlisten := optional_reads hm "listenSignals" _ (j := .arr (d.listenSignals.map .str)) (by simp)
    (Decoder.strings_written d.listenSignals) []
  have hemit := optional_reads hm "emitSignals" _ (j := .arr (d.emitSignals.map .str)) (by simp)
    (Decoder.strings_written d.emitSignals) []
  rw [show d.toJson.sorted = .obj members from hsorted]
  exact decode_reads (seq_reads (seq_reads (seq_reads (seq_reads (map_reads ScriptNode.mk hcode) hinputs)
    houtputs) hlisten) hemit) _

/-- A node that carries the data of a script node is read as that script node. -/
theorem ofNode_toJson (d : ScriptNode) (n : Node) :
    ofNode { n with data := d.toJson.sorted } = .ok (some d) := by
  have hnull : d.toJson.sorted.isNull = false := by
    rw [toJson, Json.sorted_obj]
    rfl
  simp only [ofNode, hnull, Bool.false_eq_true, if_false, decode_toJson]

/-- Placed as a script node, it has the ports that the data was made with. -/
theorem portsOf_toJson (d : ScriptNode) (n : Node) (changes : List Registry.Change) (dir : Direction) :
    (Registry.changed .seeded changes).portsOf { n with typeId := scriptTypeId, data := d.toJson.sorted } dir
      = .ok (d.mergedPorts dir) := by
  rw [Registry.portsOf_script (Registry.find_script changes) rfl, script_ports, mergedPorts_eq,
    ofNode_toJson d { n with typeId := scriptTypeId }]
  rfl

end ScriptNode

/-- Every node type, script node, edge and panel is read back from what was written of it, so a node that
carries the data of a script node is that script node, with its ports in any registry of the built-in
types. -/
theorem records_kept :
    (∀ t : NodeType, NodeType.decode t.toJson.sorted = .ok t) ∧
      (∀ d : ScriptNode, ScriptNode.decode d.toJson.sorted = .ok d) ∧
      (∀ e : Edge, Edge.decode e.toJson.sorted = .ok e) ∧
      (∀ p : Panel, Panel.decode p.toJson.sorted = .ok p) ∧
      ∀ (d : ScriptNode) (n : Node),
        ScriptNode.ofNode { n with data := d.toJson.sorted } = .ok (some d) ∧
          ∀ changes dir, (Registry.changed .seeded changes).portsOf
            { n with typeId := scriptTypeId, data := d.toJson.sorted } dir = .ok (d.mergedPorts dir) :=
  ⟨NodeType.decode_toJson, ScriptNode.decode_toJson, Edge.decode_toJson, Panel.decode_toJson, fun d n =>
    ⟨d.ofNode_toJson n, d.portsOf_toJson n⟩⟩

end ScriptHost
