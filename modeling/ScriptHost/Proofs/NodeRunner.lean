import ScriptHost.NodeRunner
import ScriptHost.Proofs.Bridge.Provenance

/-!
# What a script node lets through

The body of a node may do what it likes with its emitter and return what it likes.  Whatever it does, the
outcome has what it emitted as declared and what it returned for declared outputs, and nothing else.
-/

set_option autoImplicit false

namespace ScriptHost
open Bridge (Tells Plainly)

def HostCall.isEmit (data : ScriptNode) (sink : Nat) (c : HostCall) : Bool :=
  c.function = .standard (.emitter data sink) && c.answer.isOk

/-- The emission says what the call of an emitter of the node said. -/
structure HostCall.Emits (data : ScriptNode) (c : HostCall) (e : Emission) : Prop where
  declared : e.signal ∈ data.emitSignals
  carried : ∃ rest, c.received = .ok (.string e.signal :: rest) ∧ e.data = HostCall.payload rest
  present : e.data.isSome = true ↔ (c.given.getD 1 Lua.Datum.nil).isNil = false

namespace HostCall

theorem payload_isSome {given : List Lua.Datum} {rest : List Value}
    (h : List.Forall₂ (fun d v => Value.isNil v = d.isNil) given rest) :
    (payload rest).isSome = true ↔ (given.head?.getD Lua.Datum.nil).isNil = false := by
  cases h with
  | nil => simp [payload, Lua.Datum.isNil]
  | @cons d v _ _ hnil _ =>
    cases hv : v.isNil with
    | true => simp [payload, hv, ← hnil]
    | false => simp [payload, hv, ← hnil]

/-- While the sink of a node is the last one, it takes an emission for each call that succeeded. -/
theorem emission_emits {data : ScriptNode} {sink : Nat} {c : HostCall} (hc : c.Faithful)
    (h : c.isEmit data sink = true) : ∃ e, c.emission? sink = some e ∧ c.Emits data e := by
  obtain ⟨function, given, received, answer⟩ := c
  simp only [isEmit, Bool.and_eq_true, decide_eq_true_eq] at h
  obtain ⟨rfl, hok⟩ := h
  cases answer with
  | error e => cases hok
  | ok d =>
    obtain ⟨signal, rest, hreceived, hdeclared⟩ := hc.declared data sink d rfl rfl
    obtain rfl : received = .ok (.string signal :: rest) := hreceived
    refine ⟨⟨signal, payload rest⟩, by simp [emission?], hdeclared, ⟨rest, rfl, rfl⟩, ?_⟩
    have hnils := hc.nils _ rfl
    cases hnils with
    | cons _ hrest => simpa [List.head?_eq_getElem?] using payload_isSome hrest

theorem emission_none {data : ScriptNode} {sink : Nat} {c : HostCall}
    (hc : c.function.During data sink) (h : c.isEmit data sink = false) : c.emission? sink = none := by
  obtain ⟨function, given, received, answer⟩ := c
  unfold emission?
  split
  · next node target signal rest d hfunction _ hanswer =>
    obtain rfl : function = .standard (.emitter node target) := hfunction
    obtain rfl : answer = .ok d := hanswer
    by_cases hsink : target = sink
    · obtain rfl := hc.2 hsink
      simp [isEmit, hsink, Except.isOk, Except.toBool] at h
    · rw [if_neg hsink]
  · rfl

theorem emissions_emit {data : ScriptNode} {sink : Nat} {calls : List HostCall}
    (h : ∀ c ∈ calls, c.function.During data sink ∧ c.Faithful) :
    List.Forall₂ (Emits data) (calls.filter (isEmit data sink)) (calls.filterMap (emission? sink)) := by
  induction calls with
  | nil => exact .nil
  | cons c rest ih =>
    obtain ⟨⟨hfunction, hfaithful⟩, hrest⟩ := List.forall_mem_cons.mp h
    cases hemit : c.isEmit data sink with
    | true =>
      obtain ⟨e, he, hemits⟩ := emission_emits hfaithful hemit
      rw [List.filter_cons_of_pos hemit, List.filterMap_cons_some he]
      exact .cons hemits (ih hrest)
    | false =>
      rw [List.filter_cons_of_neg (by simp [hemit]), List.filterMap_cons_none (emission_none hfunction hemit)]
      exact ih hrest

end HostCall

def Services.Own (services : Services) : Prop :=
  ∀ functions ∈ [services.scene, services.events, services.timers], ∀ e ∈ functions, e.2.Own

namespace NodeRunner

section
variable (host : Host) (fuel : Nat) (runner : NodeRunner) (b : Bridge) (elsewhere : Handle → Bool)
  (inv : Invocation) (services : Services)

def given : List Value := arguments runner.data inv services (b.sink + 1)

def returned : Bridge.Answer Value :=
  b.openSink.invoke host fuel elsewhere runner.body (runner.given b inv services)

def calls : List HostCall :=
  Account.invoke host fuel b.openSink elsewhere runner.body (runner.given b inv services)

end

section
variable {host : Host} (hhost : host.Only HostFn.Own) (fuel : Nat) (runner : NodeRunner) {b : Bridge}
  (hb : b.Only (HostFn.UpTo b.sink)) (elsewhere : Handle → Bool) (inv : Invocation) {services : Services}
  (hservices : services.Own)

theorem services_only {functions : Dict HostFn} {K : HostFn → Prop} (h : ∀ e ∈ functions, K e.2) :
    (Services.value functions).Only K := by
  refine .map _ fun e he => ?_
  obtain ⟨e', he', rfl⟩ := List.mem_map.mp he
  exact .function _ (h e' he')

include hservices in
theorem given_only : ∀ v ∈ runner.given b inv services,
    v.Only (HostFn.During runner.data (b.sink + 1)) := by
  have hown : ∀ functions ∈ [services.scene, services.events, services.timers],
      (Services.value functions).Only (HostFn.During runner.data (b.sink + 1)) := fun functions hmem =>
    services_only fun e he => HostFn.own_during _ _ _ (hservices functions hmem e he)
  have hinputs : (Value.map (Dict.mapValues Value.ofJson inv.inputs)).Only
      (HostFn.During runner.data (b.sink + 1)) := by
    refine .map _ fun e he => ?_
    obtain ⟨e', -, rfl⟩ := List.mem_map.mp he
    exact Value.ofJson_only _ e'.2
  have hcontext : (context inv).Only (HostFn.During runner.data (b.sink + 1)) := by
    refine .map _ (List.forall_mem_cons.mpr ⟨.string _, List.forall_mem_cons.mpr ⟨.int _, by simp⟩⟩)
  have hentity : (entity inv).Only (HostFn.During runner.data (b.sink + 1)) := by
    unfold entity
    split
    · exact .string _
    · exact .nil
  have hemitter : (Value.function (.standard (.emitter runner.data (b.sink + 1)))).Only
      (HostFn.During runner.data (b.sink + 1)) := .function _ ⟨Nat.le_refl _, fun _ => rfl⟩
  simp only [given, arguments, List.forall_mem_cons]
  exact ⟨hinputs, hcontext, hentity, hemitter, hown _ (by simp), hown _ (by simp), hown _ (by simp),
    by simp⟩

include hhost hb hservices

/-- The emitter that the body is given is the only one of its sink. -/
theorem returned_tells : Tells (HostFn.During runner.data (b.sink + 1)) Plainly b.openSink
    (runner.calls host fuel b elsewhere inv services)
    (runner.returned host fuel b elsewhere inv services) := by
  -- the sink is a new one, so no emitter that is there already is of it
  have hopen : b.openSink.Only (HostFn.During runner.data (b.sink + 1)) :=
    Bridge.only_mono (HostFn.upTo_during runner.data b.sink) hb
  have hduring : host.Only (HostFn.During runner.data (b.sink + 1)) :=
    Host.only_mono (HostFn.own_during _ _) hhost
  exact (Bridge.accounts hduring fuel).query elsewhere _ (.invoke runner.body _) hopen
    (given_only runner inv hservices)

/-- The bridge after the body, when the sink is closed. -/
theorem returned_closes {r : Except ScriptError Value} {b' : Bridge}
    (h : runner.returned host fuel b elsewhere inv services = some (r, b')) :
    b'.closeSink.2.Only (HostFn.UpTo b'.closeSink.2.sink) := by
  obtain ⟨hcalls, -⟩ := returned_tells hhost fuel runner hb elsewhere inv hservices r b' h
  have hsink : b'.sink = b.sink + 1 := hcalls.sink
  have hlast : b'.closeSink.2.sink = b.sink + 1 + 1 := congrArg (· + 1) hsink
  rw [hlast]
  exact Bridge.only_mono (HostFn.during_upTo runner.data (b.sink + 1)) hcalls.only

/-- What the body emitted is what its successful calls of the emitter said. -/
theorem returned_emissions {r : Except ScriptError Value} {b' : Bridge}
    (h : runner.returned host fuel b elsewhere inv services = some (r, b')) :
    List.Forall₂ (HostCall.Emits runner.data)
      ((runner.calls host fuel b elsewhere inv services).filter (HostCall.isEmit runner.data (b.sink + 1)))
      b'.closeSink.1 := by
  obtain ⟨hcalls, -⟩ := returned_tells hhost fuel runner hb elsewhere inv hservices r b' h
  have hemitted : b'.closeSink.1 = (runner.calls host fuel b elsewhere inv services).filterMap
      (HostCall.emission? (b.sink + 1)) := by
    have hreverse := hcalls.emitted
    rw [show b.openSink.emitted = [] from rfl, List.append_nil] at hreverse
    rw [show b'.closeSink.1 = b'.emitted.reverse from rfl, hreverse, List.reverse_reverse]
    rfl
  rw [hemitted]
  exact HostCall.emissions_emit hcalls.each

end

theorem isOutput_iff (data : ScriptNode) (port : String) :
    isOutput data port = true ↔ ∃ p ∈ data.mergedOutputs, p.id = port ∧ p.type ≠ .flow := by
  simp [isOutput, List.any_eq_true]

def NamesOutputs (v : Value) : Prop := v = .nil ∨ v = .array [] ∨ ∃ members, v = .map members

theorem outputs_ok {runner : NodeRunner} {v : Value} {kept : Dict Value} (h : runner.outputs v = .ok kept)
    (port : String) (x : Value) : Dict.find? kept port = some x ↔
      (∃ members, v = .map members ∧ Dict.find? members port = some x) ∧
        ∃ p ∈ runner.data.mergedOutputs, p.id = port ∧ p.type ≠ .flow := by
  rw [← isOutput_iff]
  unfold outputs at h
  split at h
  · obtain rfl := Except.ok.inj h
    simp [Dict.find?]
  · next members =>
    obtain rfl := Except.ok.inj h
    rw [Dict.find_filter_key members (isOutput runner.data) port]
    by_cases hport : isOutput runner.data port = true
    · simp [hport]
    · simp [hport]
  · obtain rfl := Except.ok.inj h
    simp [Dict.find?]
  · cases h

theorem outputs_named (runner : NodeRunner) {v : Value} (h : NamesOutputs v) :
    ∃ kept, runner.outputs v = .ok kept := by
  rcases h with rfl | rfl | ⟨members, rfl⟩
  · exact ⟨_, rfl⟩
  · exact ⟨_, rfl⟩
  · exact ⟨_, rfl⟩

theorem outputs_unnamed (runner : NodeRunner) {v : Value} (h : ¬ NamesOutputs v) :
    runner.outputs v = .error (.runtime ("script node '" ++ runner.node ++
      "' must return a table of outputs, got " ++ v.typeName)) := by
  unfold outputs
  split
  · exact absurd (.inl rfl) h
  · next members => exact absurd (.inr (.inr ⟨members, rfl⟩)) h
  · exact absurd (.inr (.inl rfl)) h
  · rfl

section
variable (host : Host) (fuel : Nat) (runner : NodeRunner) (b : Bridge) (elsewhere : Handle → Bool)
  (inv : Invocation) (services : Services)

theorem invoke_refused {fault : GraphFault} (h : inv.check runner.data = .error fault) :
    runner.invoke host fuel b elsewhere inv services = some (.error (.graph fault), b) := by
  simp only [invoke, h]
  rfl

theorem collect_drops (v : Value) : ∃ handles, (runner.collect b v).2 = b.dropAll handles := ⟨_, rfl⟩

def conclude : Except ScriptError Value × Bridge → Except ScriptError Outcome × Bridge
  | (.error e, b') => (.error e, b'.closeSink.2)
  | (.ok v, b') =>
    ((runner.outputs v).map fun kept => Outcome.mk kept b'.closeSink.1,
      (runner.collect b'.closeSink.2 v).2)

theorem invoke_admitted (h : inv.check runner.data = .ok ()) :
    runner.invoke host fuel b elsewhere inv services =
      (runner.returned host fuel b elsewhere inv services).map runner.conclude := by
  have hbody : b.openSink.invoke host fuel elsewhere runner.body
      (arguments runner.data inv services b.openSink.sink) =
        runner.returned host fuel b elsewhere inv services := rfl
  simp only [invoke, h, hbody]
  rcases runner.returned host fuel b elsewhere inv services with _ | ⟨e | v, c⟩
  · rfl
  · rfl
  · rfl

end

theorem invoke_outcome {host : Host} {fuel : Nat} {runner : NodeRunner} {b b' : Bridge}
    {elsewhere : Handle → Bool} {inv : Invocation} {services : Services} {outcome : Outcome}
    (h : runner.invoke host fuel b elsewhere inv services = some (.ok outcome, b')) :
    inv.check runner.data = .ok () ∧
      ∃ v c, runner.returned host fuel b elsewhere inv services = some (.ok v, c) ∧
        runner.outputs v = .ok outcome.outputs ∧ c.closeSink.1 = outcome.emissions := by
  cases hcheck : inv.check runner.data with
  | error fault =>
    rw [invoke_refused _ _ _ _ _ _ _ hcheck] at h
    cases h
  | ok _ =>
    rw [invoke_admitted _ _ _ _ _ _ _ hcheck] at h
    obtain ⟨⟨r, c⟩, hreturned, hconclude⟩ := Option.map_eq_some_iff.mp h
    cases r with
    | error e => cases hconclude
    | ok v =>
      cases hkept : runner.outputs v with
      | error e => simp [conclude, hkept, Except.map] at hconclude
      | ok kept =>
        simp only [conclude, hkept, Except.map, Prod.mk.injEq, Except.ok.injEq] at hconclude
        obtain ⟨rfl, -⟩ := hconclude
        exact ⟨rfl, v, c, hreturned, hkept, rfl⟩

inductive Act where
  | operation (step : Bridge.Step)
  | compile (node : String) (data : ScriptNode)
  | invoke (host : Host) (fuel : Nat) (runner : NodeRunner) (elsewhere : Handle → Bool) (inv : Invocation)
    (services : Services)

namespace Act

def run (b : Bridge) : Act → Option Bridge
  | .operation step => (step.run b).map (·.2)
  | .compile node data => some (NodeRunner.compile b node data).2
  | .invoke host fuel runner elsewhere inv services =>
    (runner.invoke host fuel b elsewhere inv services).map (·.2)

def Own : Act → Prop
  | .operation step => step.host.Only HostFn.Own ∧ step.operation.Only HostFn.Own
  | .compile _ _ => True
  | .invoke host _ _ _ _ services => host.Only HostFn.Own ∧ services.Own

end Act

def live (b : Bridge) : List Act → Option Bridge
  | [] => some b
  | act :: rest => (act.run b).bind fun b => live b rest

theorem compile_upTo {b : Bridge} (hb : b.Only (HostFn.UpTo b.sink)) (node : String) (data : ScriptNode) :
    (compile b node data).2.Only (HostFn.UpTo (compile b node data).2.sink) := by
  have hcompiled := Bridge.stays_compile hb (source data) (chunk node)
  unfold compile
  split
  · exact hb
  · split
    · next e b' he =>
      rw [he] at hcompiled
      exact hcompiled.sink ▸ hcompiled.only
    · next body b' hbody =>
      rw [hbody] at hcompiled
      exact hcompiled.sink ▸ hcompiled.only

theorem invoke_upTo {host : Host} (hhost : host.Only HostFn.Own) {fuel : Nat} {runner : NodeRunner}
    {b b' : Bridge} (hb : b.Only (HostFn.UpTo b.sink)) {elsewhere : Handle → Bool} {inv : Invocation}
    {services : Services} (hservices : services.Own) {r : Except ScriptError Outcome}
    (h : runner.invoke host fuel b elsewhere inv services = some (r, b')) :
    b'.Only (HostFn.UpTo b'.sink) := by
  cases hcheck : inv.check runner.data with
  | error fault =>
    rw [invoke_refused _ _ _ _ _ _ _ hcheck] at h
    obtain ⟨-, rfl⟩ := Prod.mk.inj (Option.some.inj h)
    exact hb
  | ok _ =>
    rw [invoke_admitted _ _ _ _ _ _ _ hcheck] at h
    obtain ⟨⟨x, c⟩, hreturned, hconclude⟩ := Option.map_eq_some_iff.mp h
    have hclosed := returned_closes hhost fuel runner hb elsewhere inv hservices hreturned
    cases x with
    | error e =>
      obtain ⟨-, rfl⟩ := Prod.mk.inj hconclude
      exact hclosed
    | ok v =>
      obtain ⟨-, rfl⟩ := Prod.mk.inj hconclude
      obtain ⟨handles, hcollect⟩ := collect_drops runner c.closeSink.2 v
      have hdropped := Bridge.stays_dropAll hclosed handles
      rw [hcollect]
      exact hdropped.sink ▸ hdropped.only

/-- Every emitter that scripts can find in a bridge is one of a sink that was opened. -/
theorem act_upTo {act : Act} (hact : act.Own) {b b' : Bridge} (hb : b.Only (HostFn.UpTo b.sink))
    (h : act.run b = some b') : b'.Only (HostFn.UpTo b'.sink) := by
  cases act with
  | operation step =>
    obtain ⟨hhost, hop⟩ := hact
    obtain ⟨⟨reply, c⟩, hstep, rfl⟩ := Option.map_eq_some_iff.mp h
    have hstays := Bridge.step_ends (HostFn.own_upTo b.sink) hb step
      (Host.only_mono (HostFn.own_upTo b.sink) hhost)
      (Bridge.Operation.only_mono (HostFn.own_upTo b.sink) hop) reply c hstep
    exact hstays.sink ▸ hstays.only
  | compile node data =>
    obtain rfl := Option.some.inj h
    exact compile_upTo hb node data
  | invoke host fuel runner elsewhere inv services =>
    obtain ⟨⟨r, c⟩, hinvoke, rfl⟩ := Option.map_eq_some_iff.mp h
    exact invoke_upTo hact.1 hb hact.2 hinvoke

theorem live_upTo {acts : List Act} (hacts : ∀ act ∈ acts, act.Own) {b b' : Bridge}
    (hb : b.Only (HostFn.UpTo b.sink)) (h : live b acts = some b') : b'.Only (HostFn.UpTo b'.sink) := by
  induction acts generalizing b with
  | nil => exact Option.some.inj h ▸ hb
  | cons act rest ih =>
    obtain ⟨hact, hrest⟩ := List.forall_mem_cons.mp hacts
    obtain ⟨c, hc, hlive⟩ := Option.bind_eq_some_iff.mp h
    exact ih hrest (act_upTo hact hb hc) hlive

theorem start_upTo (id : Nat) (config : Config) :
    (Bridge.start id config).Only (HostFn.UpTo (Bridge.start id config).sink) := by
  intro s hs
  obtain rfl : s = Session.start ⟨id, 0⟩ config := by simpa [Bridge.sessions, Bridge.start] using hs
  exact Session.only_start _ _ _

theorem compile_ok {b b' : Bridge} {node : String} {data : ScriptNode} {runner : NodeRunner}
    (h : compile b node data = (.ok runner, b')) : runner.node = node ∧ runner.data = data := by
  unfold compile at h
  split at h
  · cases h
  · split at h
    · cases h
    · obtain rfl := Except.ok.inj (Prod.mk.inj h).1
      exact ⟨rfl, rfl⟩

/-- A node keeps to its declarations, in any life of a bridge and whatever its body does.  With inputs
that do not fit it is refused and the body does not run.  An outcome has an emission for each call of the
emitter that succeeded, in order, and the values that the body returned for declared data outputs.  A
value that names no outputs is an error, and so is what the body fails with. -/
theorem contract_enforced {id : Nat} {config : Config} {acts : List Act} {b b₀ b₁ : Bridge} {node : String}
    {data : ScriptNode} {runner : NodeRunner} (hacts : ∀ act ∈ acts, act.Own)
    (hlive : live (.start id config) acts = some b) (hcompile : compile b₀ node data = (.ok runner, b₁))
    (host : Host) (hhost : host.Only HostFn.Own) (fuel : Nat) (elsewhere : Handle → Bool) (inv : Invocation)
    (services : Services) (hservices : services.Own) :
    (∀ fault, inv.check data = .error fault →
      runner.invoke host fuel b elsewhere inv services = some (.error (.graph fault), b)) ∧
    (∀ outcome b', runner.invoke host fuel b elsewhere inv services = some (.ok outcome, b') →
      inv.check data = .ok () ∧
      List.Forall₂ (HostCall.Emits data)
        ((runner.calls host fuel b elsewhere inv services).filter (HostCall.isEmit data (b.sink + 1)))
        outcome.emissions ∧
      ∃ v c, runner.returned host fuel b elsewhere inv services = some (.ok v, c) ∧
        ∀ port x, Dict.find? outcome.outputs port = some x ↔
          (∃ members, v = .map members ∧ Dict.find? members port = some x) ∧
            ∃ p ∈ data.mergedOutputs, p.id = port ∧ p.type ≠ .flow) ∧
    (inv.check data = .ok () →
      ∀ v c, runner.returned host fuel b elsewhere inv services = some (.ok v, c) →
      (NamesOutputs v → ∃ outcome b',
        runner.invoke host fuel b elsewhere inv services = some (.ok outcome, b')) ∧
      (¬ NamesOutputs v → ∃ b', runner.invoke host fuel b elsewhere inv services =
        some (.error (.runtime ("script node '" ++ node ++ "' must return a table of outputs, got " ++
          v.typeName)), b'))) ∧
    (inv.check data = .ok () →
      ∀ e c, runner.returned host fuel b elsewhere inv services = some (.error e, c) →
      ∃ b', runner.invoke host fuel b elsewhere inv services = some (.error e, b')) := by
  obtain ⟨rfl, rfl⟩ := compile_ok hcompile
  have hb := live_upTo hacts (start_upTo id config) hlive
  have hanswer : inv.check runner.data = .ok () → ∀ r c,
      runner.returned host fuel b elsewhere inv services = some (r, c) →
        runner.invoke host fuel b elsewhere inv services = some (runner.conclude (r, c)) := by
    intro hcheck r c hreturned
    rw [invoke_admitted host fuel runner b elsewhere inv services hcheck, hreturned, Option.map_some]
  refine ⟨fun fault h => invoke_refused host fuel runner b elsewhere inv services h, ?_, ?_, ?_⟩
  · intro outcome b' h
    obtain ⟨hcheck, v, c, hreturned, hkept, hemitted⟩ := invoke_outcome h
    have hemissions := returned_emissions hhost fuel runner hb elsewhere inv hservices hreturned
    exact ⟨hcheck, hemitted ▸ hemissions, v, c, hreturned, outputs_ok hkept⟩
  · intro hcheck v c hreturned
    have hconclude := hanswer hcheck _ _ hreturned
    constructor
    · intro hnames
      obtain ⟨kept, hkept⟩ := outputs_named runner hnames
      rw [conclude, hkept] at hconclude
      exact ⟨_, _, hconclude⟩
    · intro hnames
      rw [conclude, outputs_unnamed runner hnames] at hconclude
      exact ⟨_, hconclude⟩
  · intro hcheck e c hreturned
    exact ⟨_, hanswer hcheck _ _ hreturned⟩

def straying : ScriptNode :=
  -- a node whose body goes on after an undeclared signal and returns an undeclared output
  ((ScriptNode.ofCode
    "emit('go', 1) pcall(emit, 'stray') emit('go') return \x7bcount = 2, junk = 1\x7d").withOutput
      (.make "count" "" .number)).emits "go"

theorem contract_enforced_straying :
    ∃ runner b b' outcome, compile (.start 0 .standard) "n" straying = (.ok runner, b) ∧
      runner.invoke Host.none 60 b (fun _ => false) ⟨"n", [], 1, none⟩ .none = some (.ok outcome, b') ∧
      outcome.emissions.map (·.signal) = ["go", "go"] ∧ Dict.keys outcome.outputs = ["count"] ∧
      ((runner.calls Host.none 60 b (fun _ => false) ⟨"n", [], 1, none⟩ .none).filter
        (HostCall.isEmit straying (b.sink + 1))).length = 2 := by
  let compiled := compile (.start 0 .standard) "n" straying
  have hends : (compiled.1.toOption.bind fun runner =>
      (runner.invoke Host.none 60 compiled.2 (fun _ => false) ⟨"n", [], 1, none⟩ .none).bind fun r =>
        r.1.toOption.map fun outcome => (outcome.emissions.map (·.signal), Dict.keys outcome.outputs)) =
      some (["go", "go"], ["count"]) := by decide +kernel
  rcases hcompile : compiled with ⟨e | runner, b⟩
  · rw [hcompile] at hends
    cases hends
  rw [hcompile] at hends
  obtain ⟨runner', hrunner, hends⟩ := Option.bind_eq_some_iff.mp hends
  obtain rfl := Option.some.inj hrunner
  obtain ⟨⟨e | outcome, b'⟩, hinvoke, hends⟩ := Option.bind_eq_some_iff.mp hends
  · cases hends
  obtain ⟨hsignals, hkeys⟩ := Prod.mk.inj (Option.some.inj hends)
  have hlive : live (.start 0 .standard) [.compile "n" straying] = some b :=
    congrArg some (congrArg Prod.snd hcompile)
  obtain ⟨-, houtcome, -⟩ := contract_enforced (by simp [Act.Own]) hlive hcompile Host.none
    (fun _ _ _ => .done _ .nil) 60 (fun _ => false) ⟨"n", [], 1, none⟩ .none
    (by simp [Services.Own, Services.none])
  obtain ⟨-, hemissions, -⟩ := houtcome outcome b' hinvoke
  have hcount : outcome.emissions.length = 2 := by simpa using congrArg List.length hsignals
  exact ⟨runner, b, b', outcome, hcompile, hinvoke, hsignals, hkeys, hemissions.length_eq.trans hcount⟩

end NodeRunner

end ScriptHost
