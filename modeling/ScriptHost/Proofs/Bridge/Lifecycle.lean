import ScriptHost.Proofs.Bridge.Install
import ScriptHost.Proofs.Bridge.Operations

/-!
# Closing and resetting

A closed bridge answers every operation as closed and is not changed by any, until it is reset.  A reset
brings a session that differs from the first one of a new bridge in its name only; with it, all handles of
the sessions before mean nothing any more.
-/

set_option autoImplicit false

namespace ScriptHost.Bridge
open Lua

def Operation.whenClosed (config : Config) : Operation → Reply
  | .query _ => .value (.error .closed)
  | .setGlobal _ _ => .unit (.error .closed)
  | .compile _ _ => .compiled (.error .closed)
  | .registerFunction _ _ => .unit (.error .closed)
  | .registerModule _ _ => .unit (.error .closed)
  | .install => .flag (.error .closed)
  | .stateSnapshot => .state (.error .closed)
  | .runUi _ chunk => .tree (.error (.ofError .closed chunk))
  | .preview _ => .preview (.failed (.ofError .closed config.chunkName))
  | .dispatch _ _ => .dispatched (.error (.ofError .closed config.chunkName))
  | .pinned => .count 0
  | .release => .count 0
  | .close => .unit (.ok ())
  | .reset => .unit (.ok ())
  | .retain _ => .done
  | .drop _ => .done

structure Closed (b : Bridge) : Prop where
  session : b.session = none
  lingering : b.lingering = []
  free : b.busy = false

section
variable {b : Bridge} (hb : Closed b)
include hb

theorem closed_withSession {α : Type} (f : Session → Answer α) :
    b.withSession f = some (.error .closed, b) := by
  simp only [withSession, hb.session]

theorem closed_guarded {α : Type} (f : Bridge → Session → Answer α) :
    (b.guarded fun b => b.withSession (f b)) = some (.error .closed, b) := by
  obtain ⟨hs, -, hfree⟩ := hb
  cases b
  simp_all [guarded, enter, withSession, leave]

theorem closed_update (id : SessionId) (f : Session → Session) : b.update id f = b := by
  obtain ⟨hs, hl, -⟩ := hb
  cases b
  simp_all [update]

theorem closed_query (host : Host) (fuel : Nat) (elsewhere : Handle → Bool) (q : Query) :
    q.run host (fuel + 1) elsewhere b = some (.error .closed, b) := by
  cases q with
  | execute source chunk => exact closed_guarded hb _
  | callGlobal name args => exact closed_guarded hb _
  | invoke handle args =>
    simp only [Query.run, invoke]
    split
    · exact closed_guarded hb _
    · rfl
  | getGlobal name => exact closed_withSession hb _

theorem closed_install (host : Host) (fuel : Nat) :
    b.install host fuel = some (.error .closed, b) := closed_withSession hb _

theorem closed_runUi (host : Host) (fuel : Nat) (source chunk : String) :
    b.runUiNamed host fuel source chunk = some (.error (.ofError .closed chunk), b) := by
  have hrelease : b.release = (0, b) := by simp only [release, hb.session]
  simp only [runUiNamed, evaluateUi, hrelease, closed_install hb, Answer.next, diagnosed,
    Option.map_some]

theorem closed_step (step : Step) (hf : 0 < step.fuel) (hop : step.operation ≠ .reset) :
    step.run b = some (step.operation.whenClosed b.config, b) := by
  obtain ⟨host, fuel, elsewhere, operation⟩ := step
  obtain ⟨fuel, rfl⟩ := Nat.exists_eq_succ_of_ne_zero (Nat.pos_iff_ne_zero.mp hf)
  cases operation with
  | query q =>
    simp only [Step.run, closed_query hb, Option.map_some]
    rfl
  | setGlobal name v =>
    have hset : b.setGlobal host (fuel + 1) name v = some (.error .closed, b) :=
      closed_withSession hb _
    simp only [Step.run, hset, Option.map_some]
    rfl
  | compile source chunk =>
    simp only [Step.run, compile, hb.session]
    rfl
  | registerFunction name f =>
    have hset : b.registerFunction host (fuel + 1) name f = some (.error .closed, b) :=
      closed_withSession hb _
    simp only [Step.run, hset, Option.map_some]
    rfl
  | registerModule name methods =>
    have hset : b.registerModule host (fuel + 1) name methods = some (.error .closed, b) :=
      closed_withSession hb _
    simp only [Step.run, hset, Option.map_some]
    rfl
  | install =>
    simp only [Step.run, closed_install hb, Option.map_some]
    rfl
  | stateSnapshot =>
    simp only [Step.run, stateSnapshot, hb.session]
    rfl
  | runUi source chunk =>
    simp only [Step.run, closed_runUi hb, Option.map_some]
    rfl
  | preview source =>
    simp only [Step.run, preview, runUi, closed_runUi hb, Option.map_some]
    rfl
  | dispatch handle args =>
    have hinvoke := closed_query hb host fuel elsewhere (.invoke handle args)
    simp only [Query.run] at hinvoke
    simp only [Step.run, dispatch, hinvoke, diagnosed, Option.map_some]
    rfl
  | pinned =>
    simp only [Step.run, pinned, hb.session]
    rfl
  | release =>
    simp only [Step.run, release, hb.session]
    rfl
  | close =>
    simp only [Step.run, close, hb.free, hb.session, Bool.false_eq_true, if_false]
    rfl
  | reset => exact absurd rfl hop
  | retain handle =>
    simp only [Step.run, retain, closed_update hb]
    rfl
  | drop handle =>
    simp only [Step.run, drop, closed_update hb]
    rfl

theorem closed_perform (steps : List Step)
    (hsteps : ∀ step ∈ steps, 0 < step.fuel ∧ step.operation ≠ .reset) :
    perform b steps = some (steps.map fun step => step.operation.whenClosed b.config, b) := by
  induction steps with
  | nil => rfl
  | cons step rest ih =>
    obtain ⟨hf, hop⟩ := hsteps step List.mem_cons_self
    have hrest := ih fun other hmem => hsteps other (List.mem_cons_of_mem _ hmem)
    simp only [perform, closed_step hb step hf hop, Option.bind_some, hrest, Option.map_some,
      List.map_cons]

end

/-- A bridge at rest can be closed. -/
theorem close_atRest {id : Nat} {config : Config} {b : Bridge} (hb : AtRest id config b) :
    b.close = (.ok (), { b with session := none }) := by
  have hfree := hb.idle.free
  cases hs : b.session with
  | none =>
    cases b
    simp_all [close]
  | some s =>
    have hstill := hb.idle.still s (mem_open hs)
    simp [close, hfree, hs, hstill]

theorem closed_atRest {id : Nat} {config : Config} {b : Bridge} (hb : AtRest id config b) :
    Closed { b with session := none } where
  session := rfl
  lingering := atRest_lingering (b := b) hb
  free := hb.idle.free

def renewed (b : Bridge) : Bridge :=
  -- the script log stays, and so do the count of sessions, which keeps their names apart, and the
  -- sink for emissions, which belongs to the host
  { Bridge.start b.id b.config with
    session := some (.start ⟨b.id, b.openings⟩ b.config)
    openings := b.openings + 1
    log := b.log
    sink := b.sink
    emitted := b.emitted }

/-- From whatever state a reset succeeds, it leaves nothing else but sessions that runs are under way
in. -/
theorem reset_renewed {b b' : Bridge} (h : b.reset = (.ok (), b')) :
    { b' with lingering := [] } = b.renewed := by
  unfold reset at h
  split at h
  · simp at h
  · next b₁ hclose =>
    obtain ⟨-, rfl⟩ := Prod.mk.inj h
    have hfields : b₁.id = b.id ∧ b₁.config = b.config ∧ b₁.log = b.log ∧ b₁.busy = false ∧
        b₁.openings = b.openings ∧ b₁.sink = b.sink ∧ b₁.emitted = b.emitted := by
      unfold close at hclose
      split at hclose
      · simp at hclose
      · next hfree =>
        split at hclose
        · obtain ⟨-, rfl⟩ := Prod.mk.inj hclose
          simp_all
        · obtain ⟨-, rfl⟩ := Prod.mk.inj hclose
          simp_all
    obtain ⟨hid, hconfig, hlog, hfree, hopenings, hsink, hemitted⟩ := hfields
    simp only [reopen, renewed, start, hid, hconfig, hlog, hfree, hopenings, hsink, hemitted]

theorem reset_atRest {id : Nat} {config : Config} {b : Bridge} (hb : AtRest id config b) :
    b.reset = (.ok (), b.renewed) := by
  have hfree := hb.idle.free
  have hlingering := atRest_lingering hb
  simp only [reset, close_atRest hb, reopen, renewed, start, hfree, hlingering]

/-- A handle that means nothing any more: its function cannot be called, it cannot be given to a
script, and letting go of it does nothing. -/
structure Dead (b : Bridge) (handle : Handle) : Prop where
  gone : b.isLive handle = false
  refused : ∀ host fuel elsewhere args, elsewhere handle = false →
    b.invoke host fuel elsewhere handle args = some (.error .closed, b)
  foreign : ∀ s, b.session = some s → s.inward (.callable handle) = .error Crossing.foreignHandle
  dropped : b.drop handle = b

theorem inward_unnamed {s : Session} {handle : Handle} (hid : s.id ≠ handle.session) :
    s.inward (.callable handle) = .error Crossing.foreignHandle := by
  simp only [Session.inward, Crossing.inward, Crossing.resolve, if_neg (Ne.symm hid), Except.map]

/-- A handle is dead where no session has its name. -/
theorem dead_unnamed {b : Bridge} {handle : Handle}
    (hnone : ∀ s ∈ b.sessions, s.id ≠ handle.session) : Dead b handle := by
  have hgone : b.isLive handle = false := by
    rw [isLive, Option.isSome_eq_false_iff, Option.isNone_iff_eq_none, find?, List.find?_eq_none]
    exact fun s hs => by simpa using hnone s hs
  refine ⟨hgone, ?_, ?_, ?_⟩
  · intro host fuel elsewhere args helsewhere
    simp only [invoke, hgone, helsewhere, Bool.or_self, Bool.false_eq_true, if_false]
    rfl
  · exact fun s hs => inward_unnamed (hnone s (mem_open hs))
  · have hothers : ∀ s ∈ b.sessions, (if s.id = handle.session then s.drop handle else s) = s :=
      fun s hs => if_neg (hnone s hs)
    have hsession : b.session.map (fun s => if s.id = handle.session then s.drop handle else s) =
        b.session := by
      cases hs : b.session with
      | none => rfl
      | some s => exact congrArg some (hothers s (mem_open hs))
    have hlingering : b.lingering.map (fun s => if s.id = handle.session then s.drop handle else s) =
        b.lingering :=
      (List.map_congr_left fun s hs => hothers s (List.mem_append_right _ hs)).trans (List.map_id' _)
    simp only [drop, update, hsession, hlingering]

theorem renewed_atRest {id : Nat} {config : Config} {b : Bridge} (hb : AtRest id config b) :
    AtRest id config b.renewed := by
  have hrun : Step.run b ⟨Host.none, 0, fun _ => false, .reset⟩ = some (.unit (.ok ()), b.renewed) := by
    simp only [Step.run, reset_atRest hb]
  exact (step_settles hb _ _ hrun).rest

/-- From whatever state a reset succeeds, the bridge has the state of a new one but for its log, the name
of its session and what lingers, and the session refuses all handles from before.  However a run of the
host between calls goes, the bridge can be closed after it, and then answers everything as closed and
stays as it is until it is reset.  It can be reset, whether open or closed; then nothing lingers, and no
handle from before means anything from then on, and the standard globals are installed anew, without fail
where the memory is not limited. -/
theorem close_reset :
    (∀ b b' : Bridge, b.reset = (.ok (), b') → { b' with lingering := [] } = b.renewed ∧
      ∀ handle, Named b handle → ∀ s, b'.session = some s →
        s.inward (.callable handle) = .error Crossing.foreignHandle) ∧
    ∀ (id : Nat) (config : Config) (steps : List Step) (replies : List Reply) (b : Bridge),
      perform (.start id config) steps = some (replies, b) →
      (∃ b', b.close = (.ok (), b') ∧ ∀ later : List Step,
        (∀ step ∈ later, 0 < step.fuel ∧ step.operation ≠ .reset) →
          perform b' later = some (later.map fun step => step.operation.whenClosed config, b')) ∧
      b.reset = (.ok (), b.renewed) ∧ b.renewed.log = b.log ∧
      b.renewed.session = (Bridge.start id config).session.map
        (fun s => { s with id := ⟨id, b.openings⟩ }) ∧
      b.renewed.stateSnapshot = .ok [] ∧ b.renewed.pinned = 0 ∧
      (∀ host fuel new b', b.renewed.install host fuel = some (.ok new, b') → new = true) ∧
      (config.memoryLimit = none →
        ∀ host fuel, ∃ b', b.renewed.install host (fuel + 3) = some (.ok true, b')) ∧
      ∀ (later : List Step) (more : List Reply) (b' : Bridge),
        perform b.renewed later = some (more, b') →
          ∀ handle ∈ replies.flatMap Reply.handles, Dead b' handle := by
  refine ⟨fun b b' hreset => ?_, fun id config steps replies b hrun => ?_⟩
  · have hrenewed := reset_renewed hreset
    refine ⟨hrenewed, fun handle hnamed s hs => ?_⟩
    have hopen : b.renewed.session = some s := by rw [← hrenewed, ← hs]
    obtain rfl := Option.some.inj hopen
    apply inward_unnamed
    intro hid
    have hopening := hnamed.2
    rw [← hid] at hopening
    exact absurd hopening (Nat.lt_irrefl _)
  · have hsettles := performed_settles (start_atRest id config) steps replies hrun
    have hrest := hsettles.rest
    obtain ⟨hid, hconfig⟩ : b.id = id ∧ b.config = config := ⟨hrest.named, hrest.configured⟩
    refine ⟨⟨_, close_atRest hrest, ?_⟩, reset_atRest hrest, rfl, ?_, rfl, rfl, ?_, ?_, ?_⟩
    · intro later hlater
      rw [← hconfig]
      exact closed_perform (closed_atRest hrest) later hlater
    · rw [← hid, ← hconfig]
      rfl
    · exact fun host fuel new b' hinstall => install_new (b := b.renewed) rfl rfl hinstall
    · intro hlimit host fuel
      have hunhindered : (Session.start ⟨b.id, b.openings⟩ b.config).heap.Unhindered := by
        rw [Session.start, hconfig, hlimit]
        exact Heap.start_unhindered config.sandbox
      obtain ⟨b', h, hb', -⟩ := install_unhindered host fuel (b := b.renewed) rfl hunhindered rfl
      exact ⟨b', hb'⟩
    · intro later more b' hlater handle hmem
      have hopening := (hsettles.named handle hmem).2
      have hafter := performed_settles (renewed_atRest hrest) later more hlater
      apply dead_unnamed
      -- a session from now on is the one that the reset opened or a later one, a handle is older
      intro s' hs' hs'id
      rw [← hs'id] at hopening
      rcases hafter.sessions s' hs' with ⟨s, hs, heq⟩ | hopened
      · obtain rfl := List.mem_singleton.mp hs
        rw [heq] at hopening
        exact absurd hopening (Nat.lt_irrefl _)
      · have hlater : b.openings + 1 ≤ s'.id.opening := hopened
        omega

def opened : List Step := [
  -- a script that leaves a global variable and gives out two functions, and then a close
  ⟨Host.none, 40, fun _ => false, .query (.execute "x = 1 return {print, print}" "one")⟩,
  ⟨Host.none, 1, fun _ => false, .close⟩]

theorem close_reset_opened :
    (∃ b', (Bridge.start 0 .standard).reset = (.ok (), b') ∧
      { b' with lingering := [] } = (Bridge.start 0 .standard).renewed) ∧
    ∃ replies b, perform (.start 0 .standard) opened = some (replies, b) ∧
      (replies.flatMap Reply.handles).length = 2 ∧ b.isClosed = true ∧
      (∃ b', b.close = (.ok (), b') ∧
        perform b' opened = some ([.value (.error .closed), .unit (.ok ())], b')) ∧
      b.reset = (.ok (), b.renewed) ∧
      ∃ more b', perform b.renewed opened = some (more, b') ∧
        ∀ handle ∈ replies.flatMap Reply.handles, Dead b' handle := by
  refine ⟨⟨_, rfl, (close_reset.1 _ _ rfl).1⟩, ?_⟩
  have hends : ((perform (.start 0 .standard) opened).bind fun r =>
      (perform r.2.renewed opened).map fun _ =>
        ((r.1.flatMap Reply.handles).length, r.2.isClosed)) = some (2, true) := by decide +kernel
  obtain ⟨⟨replies, b⟩, hrun, hends⟩ := Option.bind_eq_some_iff.mp hends
  obtain ⟨⟨more, b'⟩, hmore, heq⟩ := Option.map_eq_some_iff.mp hends
  obtain ⟨hlength, hclosed⟩ := Prod.mk.inj heq
  obtain ⟨⟨b₁, hclose, hlater⟩, hreset, -, -, -, -, -, -, hdead⟩ :=
    close_reset.2 0 .standard opened replies b hrun
  have hanswers := hlater opened (by simp [opened])
  exact ⟨replies, b, hrun, hlength, hclosed, ⟨b₁, hclose, hanswers⟩, hreset, more, b', hmore,
    hdead opened more b' hmore⟩

end ScriptHost.Bridge
