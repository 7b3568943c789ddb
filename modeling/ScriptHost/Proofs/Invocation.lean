import Mathlib.Data.List.Find
import ScriptHost.NodeRunner
import ScriptHost.Proofs.Dict
import ScriptHost.Proofs.Registry.Ports

/-!
# Which inputs a script node takes

An invocation passes its check when every input is a data port of the node and every required port is
among the inputs.  Data ports can always be given.  A flow port takes no value, but nothing keeps it
from being marked as required: such a port can neither be given nor left out, and a node that has one
takes no invocation at all.
-/

set_option autoImplicit false

namespace ScriptHost

def Port.isUnmeetable (p : Port) : Bool := p.isRequired && p.type.isFlow

theorem Port.isUnmeetable_iff (p : Port) :
    p.isUnmeetable = true ↔ p.isRequired = true ∧ p.type.isData = false := by
  simp [isUnmeetable, PortType.isData]

def ScriptNode.dataInputs (d : ScriptNode) : List String :=
  (d.mergedInputs.filter (·.type.isData)).map (·.id)

theorem ScriptNode.mergedInputs_nodup (d : ScriptNode) : (d.mergedInputs.map (·.id)).Nodup :=
  Port.merge_nodup (by decide) d.customInputs

theorem ScriptNode.mem_dataInputs (d : ScriptNode) (key : String) :
    key ∈ d.dataInputs ↔ ∃ p ∈ d.mergedInputs, p.id = key ∧ p.type.isData = true := by
  simp [dataInputs, and_assoc, and_comm]

/-- A port is among the data inputs exactly when it carries data itself: no other port has its id. -/
theorem ScriptNode.port_dataInputs {d : ScriptNode} {p : Port} (hp : p ∈ d.mergedInputs) :
    p.id ∈ d.dataInputs ↔ p.type.isData = true := by
  rw [d.mem_dataInputs]
  constructor
  · rintro ⟨q, hq, hid, hdata⟩
    rwa [List.inj_on_of_nodup_map d.mergedInputs_nodup hq hp hid] at hdata
  · intro hdata
    exact ⟨p, hp, rfl, hdata⟩

namespace Invocation

def Supplies (inv : Invocation) (d : ScriptNode) : Prop :=
  ∀ key, key ∈ Dict.keys inv.inputs ↔ key ∈ d.dataInputs

def supplying (d : ScriptNode) (value : String → Json) (node : String) (run : UInt64)
    (entity : Option String) : Invocation where
  node := node
  inputs := Dict.ofList (d.dataInputs.map fun id => (id, value id))
  run := run
  entity := entity

theorem supplying_supplies (d : ScriptNode) (value : String → Json) (node : String) (run : UInt64)
    (entity : Option String) : (supplying d value node run entity).Supplies d := by
  intro key
  show key ∈ (Dict.ofList _).map (·.1) ↔ _
  rw [Dict.ofList_keys, List.map_map]
  simp

theorem firstUndeclared_none (inv : Invocation) (d : ScriptNode) :
    inv.firstUndeclared? d.mergedInputs = none ↔ ∀ key ∈ Dict.keys inv.inputs, key ∈ d.dataInputs := by
  simp [firstUndeclared?, d.mem_dataInputs]

theorem contains_iff (inv : Invocation) (key : String) :
    Dict.contains inv.inputs key = true ↔ key ∈ Dict.keys inv.inputs :=
  Dict.find_some_iff inv.inputs key

theorem firstMissing_none (inv : Invocation) (ports : List Port) :
    inv.firstMissing? ports = none ↔
      ∀ p ∈ ports, p.isRequired = true → p.id ∈ Dict.keys inv.inputs := by
  simp [firstMissing?, ← contains_iff]

/-- When the data ports are given, only a flow port can be missing. -/
theorem firstMissing_supplied {inv : Invocation} {d : ScriptNode} (h : inv.Supplies d) :
    inv.firstMissing? d.mergedInputs = d.mergedInputs.find? Port.isUnmeetable := by
  refine List.find?_congr fun p hp => ?_
  have hgiven : Dict.contains inv.inputs p.id = p.type.isData := by
    rw [Bool.eq_iff_iff, contains_iff, h p.id, ScriptNode.port_dataInputs hp]
  rw [hgiven, PortType.isData, Bool.not_not]
  rfl

theorem check_ok_iff (inv : Invocation) (d : ScriptNode) : inv.check d = .ok () ↔
    inv.firstUndeclared? d.mergedInputs = none ∧ inv.firstMissing? d.mergedInputs = none := by
  unfold check
  cases inv.firstUndeclared? d.mergedInputs with
  | some key => simp
  | none => cases inv.firstMissing? d.mergedInputs <;> simp

theorem check_supplied {inv : Invocation} {d : ScriptNode} (h : inv.Supplies d) :
    inv.check d = match d.mergedInputs.find? Port.isUnmeetable with
      | some p => .error (.missingInput p.id)
      | none => .ok () := by
  have hdeclared : inv.firstUndeclared? d.mergedInputs = none :=
    (inv.firstUndeclared_none d).mpr fun key hkey => (h key).mp hkey
  cases hfind : d.mergedInputs.find? Port.isUnmeetable <;>
    simp only [check, hdeclared, firstMissing_supplied h, hfind]

/-- A required flow port keeps every invocation out. -/
theorem check_unmeetable {d : ScriptNode} {p : Port} (hp : p ∈ d.mergedInputs)
    (hstuck : p.isUnmeetable = true) (inv : Invocation) : inv.check d ≠ .ok () := by
  intro hok
  obtain ⟨hrequired, hflow⟩ := p.isUnmeetable_iff.mp hstuck
  obtain ⟨hdeclared, hmissing⟩ := (inv.check_ok_iff d).mp hok
  have hgiven : p.id ∈ Dict.keys inv.inputs := (inv.firstMissing_none _).mp hmissing p hp hrequired
  have hdata := (inv.firstUndeclared_none d).mp hdeclared p.id hgiven
  rw [ScriptNode.port_dataInputs hp, hflow] at hdata
  exact Bool.false_ne_true hdata

/-- An invocation that gives exactly the data ports passes, whatever the values, unless a flow port is
required; then it is refused for the first such port.  So a node takes some invocation exactly when all
its required inputs carry data.  The node's own check plays no part in it. -/
theorem data_inputs_suffice (d : ScriptNode) :
    (∀ inv : Invocation, inv.Supplies d →
      inv.check d = match d.mergedInputs.find? Port.isUnmeetable with
        | some p => .error (.missingInput p.id)
        | none => .ok ()) ∧
    ((∃ inv : Invocation, inv.check d = .ok ()) ↔
      ∀ p ∈ d.mergedInputs, p.isRequired = true → p.type.isData = true) := by
  refine ⟨fun inv => check_supplied, ?_⟩
  have hstuck : (∀ p ∈ d.mergedInputs, p.isRequired = true → p.type.isData = true) ↔
      d.mergedInputs.find? Port.isUnmeetable = none := by
    simp [Port.isUnmeetable_iff]
  rw [hstuck]
  constructor
  · rintro ⟨inv, hok⟩
    rw [List.find?_eq_none]
    intro p hp hunmeetable
    exact check_unmeetable hp hunmeetable inv hok
  · intro hnone
    have hcheck := check_supplied (supplying_supplies d (fun _ => .null) "" 0 none)
    rw [hnone] at hcheck
    exact ⟨_, hcheck⟩

def steered : ScriptNode :=
  ((ScriptNode.fresh.withInput (Port.make "speed" "" .number).require).withInput
    (.make "note" "" .any)).withInput (.flow "stop" "Stop")

theorem data_inputs_suffice_steered :
    let inv := supplying steered (fun _ => .null) "n" 1 none
    inv.Supplies steered ∧ Dict.keys inv.inputs = ["note", "speed"] ∧ inv.check steered = .ok () := by
  intro inv
  have hsupplies : inv.Supplies steered := supplying_supplies steered _ "n" 1 none
  exact ⟨hsupplies, by decide, (data_inputs_suffice steered).1 inv hsupplies⟩

def waiting : ScriptNode := ScriptNode.fresh.withInput (Port.flow "go" "Go").require

/-- The node passes its own check and is compiled, yet it takes neither the invocation that gives all
its data ports nor any other. -/
theorem compiled_takes_none :
    waiting.check = .ok () ∧
      (∃ runner, (NodeRunner.compile (.start 0 .standard) "n" waiting).1 = .ok runner) ∧
      (supplying waiting (fun _ => .null) "n" 1 none).Supplies waiting ∧
      (supplying waiting (fun _ => .null) "n" 1 none).check waiting = .error (.missingInput "go") ∧
      ∀ inv : Invocation, inv.check waiting ≠ .ok () := by
  have hcompiled : (NodeRunner.compile (.start 0 .standard) "n" waiting).1.toOption.isSome = true := by
    decide +kernel
  refine ⟨by decide, ?_, supplying_supplies waiting _ "n" 1 none, by decide, fun inv => ?_⟩
  · cases hends : (NodeRunner.compile (.start 0 .standard) "n" waiting).1 with
    | error e =>
      rw [hends] at hcompiled
      cases hcompiled
    | ok runner => exact ⟨runner, rfl⟩
  · exact check_unmeetable (p := (Port.flow "go" "Go").require) (by decide) (by decide) inv

end Invocation

end ScriptHost
