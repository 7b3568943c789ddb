import ScriptHost.Proofs.Bridge.Course

/-!
# Runs take courses

Every way to run a script takes a course with the calls of its account, and so does every operation of the
host and any number of them.
-/

set_option autoImplicit false

namespace ScriptHost
open Lua

namespace Bridge

def courseWalk (home : SessionId) (host : Host) : Walk host where
  outer b := home.opening < b.openings
  inner b := home.opening < b.openings
  within id b := At home id b
  turns _ calls b b' := Course home b calls b'
  asks calls b b' := Course home b calls b'
  brings _ calls b b' _ := Course home b calls b'
  outer_inner hb := hb
  inner_busy hb _ := hb
  inner_marked hb _ := hb
  inner_within hat := hat.opened
  inner_kept h hb := (h.back hb).1
  within_open hb hs := at_open hb hs
  within_kept h hat := h.at hat
  within_entered hat := (Aside.enterRun _).course.at hat
  turns_refl _ := .start
  turns_trans _ h h' := h.trans h'
  turns_put _ _ := putHeap_course _ _ _
  turns_take _ := takeHeap_course _ _
  turns_in _ _ := inward_course _ _ _
  turns_inAll _ _ := inwardAll_course _ _ _
  turns_standard args hat _ := .standard .start _ _ args hat.current
  turns_custom args r _ _ h := ((Course.start.custom _ _ args _ r).trans h).aside (.unpin _)
  asks_refl _ := .start
  asks_trans _ h h' := h.trans h'
  asks_turns _ h := h
  asks_out args _ := outwardAll_course _ _ args
  asks_release _ _ := Aside.release.course
  asks_close _ _ := Aside.close.course
  asks_reset _ _ := Aside.reset.course
  asks_brings _ h := h
  brings_error _ _ := .start
  brings_out d _ := outward_course _ _ d
  brings_after _ h h' := h.trans h'
  brings_left _ h := ((Aside.enterRun _).course.after h).aside (.leaveRun _)
  brings_marked _ _ _ h := ((Aside.mark true).course.after h).aside (.mark false)

structure Courses (home : SessionId) (host : Host) (fuel : Nat) : Prop where
  run : ∀ b id machine, At home id b →
    Takes home b (Account.run host fuel b id machine) (run host fuel b id machine)
  query : ∀ elsewhere b q, home.opening < b.openings →
    Takes home b (Account.query host fuel elsewhere b q) (Query.run host fuel elsewhere b q)
  setGlobal : ∀ b name v, home.opening < b.openings →
    Takes home b (Account.setGlobal host fuel b name v) (setGlobal host fuel b name v)

theorem courses (home : SessionId) (host : Host) (fuel : Nat) : Courses home host fuel := by
  have hall : Walk.Walked (courseWalk home host) host fuel :=
    Walk.walked _ (fun name args _ => (host name args).asks_any.matches) fuel
  exact {
    run := fun b id machine hat r b' h =>
      (Aside.enterRun id).course.after ((hall.run b id machine hat fun _ _ => trivial).2 _ h)
    query := fun elsewhere b q hb r b' h =>
      ((Walk.query_walked hall elsewhere b q hb (fun _ => hb) fun _ _ => trivial).2 _ h).asks
    setGlobal := fun b name v hb r b' h => (hall.setGlobal b name v hb trivial).2 _ h }

end Bridge

namespace Account
open Bridge

def onward {α : Type} (a : Answer α) (calls : Bridge → α → List HostCall) : List HostCall :=
  match a with
  | some (.ok v, b) => calls b v
  | _ => []

def registerModule (host : Host) (fuel : Nat) (b : Bridge) (name : String)
    (methods : List (String × HostFn)) : List HostCall :=
  match b.session with
  | none => []
  | some s =>
    match makeModule methods s.heap with
    | .error _ => []
    | .ok (t, h) => run host fuel (b.putHeap s.id h) s.id (.writing name t)

def expose (host : Host) (fuel : Nat) (b : Bridge) (name : String) : StandardGlobal → List HostCall
  | .function f => setGlobal host fuel b name (.function (.standard f))
  | .table methods => registerModule host fuel b name (methods.map fun m => (m.1, .standard m.2))

def exposeAll (host : Host) (fuel : Nat) (b : Bridge) : List (String × StandardGlobal) → List HostCall
  | [] => []
  | (name, g) :: rest =>
    expose host fuel b name g ++
      onward (b.expose host fuel name g) fun b _ => exposeAll host fuel b rest

def install (host : Host) (fuel : Nat) (b : Bridge) : List HostCall :=
  match b.session with
  | none => []
  | some s => if s.installed then [] else exposeAll host fuel b standardGlobals

def evaluateUi (host : Host) (fuel : Nat) (b : Bridge) (source chunk : String) : List HostCall :=
  install host fuel b.release.2 ++
    onward (b.release.2.install host fuel) fun b _ => executeNamed host fuel b source chunk

def step (b : Bridge) (step : Bridge.Step) : List HostCall :=
  match step.operation with
  | .query q => query step.host step.fuel step.elsewhere b q
  | .setGlobal name v => setGlobal step.host step.fuel b name v
  | .registerFunction name f => setGlobal step.host step.fuel b name (.function f)
  | .registerModule name methods => registerModule step.host step.fuel b name methods
  | .install => install step.host step.fuel b
  | .runUi source chunk => evaluateUi step.host step.fuel b source chunk
  | .preview source => evaluateUi step.host step.fuel b source b.config.chunkName
  | .dispatch handle args => invoke step.host step.fuel b step.elsewhere handle args
  | _ => []

def perform (b : Bridge) : List Bridge.Step → List HostCall
  | [] => []
  | s :: rest =>
    step b s ++
      match s.run b with
      | none => []
      | some (_, b) => perform b rest

end Account

namespace Bridge

section
variable {α β : Type} {home : SessionId} {b : Bridge} {calls : List HostCall} {a : Answer α}

theorem takes_onward {f : Bridge → α → Answer β} {more : Bridge → α → List HostCall}
    (ha : Takes home b calls a)
    (hf : ∀ b' v, Course home b calls b' → Takes home b' (more b' v) (f b' v)) :
    Takes home b (calls ++ Account.onward a more) (a.next f) := by
  rcases a with _ | ⟨e | v, b'⟩
  · exact takes_none
  · exact takes_some (by simpa [Account.onward] using ha _ _ rfl)
  · have hfirst := ha _ _ rfl
    exact takes_after hfirst (hf b' v hfirst)

/-- What goes on with the result may call nothing. -/
theorem takes_next {f : Bridge → α → Answer β} (ha : Takes home b calls a)
    (hf : ∀ b' v, Takes home b' [] (f b' v)) : Takes home b calls (a.next f) := by
  rcases a with _ | ⟨e | v, b'⟩
  · exact takes_none
  · exact takes_some (ha _ _ rfl)
  · exact List.append_nil calls ▸ takes_after (ha _ _ rfl) (hf b' v)

theorem diagnosed_course {chunk : String} {r : Except Diagnostic α} {b' : Bridge}
    (ha : Takes home b calls a) (h : diagnosed chunk a = some (r, b')) : Course home b calls b' := by
  obtain ⟨⟨x, b₁⟩, hx, heq⟩ := Option.map_eq_some_iff.mp h
  obtain ⟨-, rfl⟩ := Prod.mk.inj heq
  exact ha x b₁ hx

theorem dropAll_course (b : Bridge) (handles : List Handle) : Course home b [] (b.dropAll handles) := by
  induction handles generalizing b with
  | nil => exact .start
  | cons handle rest ih => exact (Aside.drop handle).course.trans (ih (b.drop handle))

end

section
variable {home : SessionId} (host : Host) (fuel : Nat) {b : Bridge} (hb : home.opening < b.openings)
include hb

theorem takes_registerModule (name : String) (methods : List (String × HostFn)) :
    Takes home b (Account.registerModule host fuel b name methods)
      (b.registerModule host fuel name methods) := by
  simp only [Account.registerModule, registerModule, withSession]
  cases hs : b.session with
  | none => exact takes_some .start
  | some s =>
    dsimp only
    cases makeModule methods s.heap with
    | error e => exact takes_some .start
    | ok made =>
      obtain ⟨t, h⟩ := made
      have hput : Course home b [] _ := putHeap_course b s.id h
      have hrun := takes_after hput
        ((courses home host fuel).run _ s.id (.writing name t) (hput.at (at_open hb hs)))
      exact takes_map (f := fun r => r.map fun _ => ()) hrun fun _ => .leaveRun s.id

theorem takes_expose (name : String) (g : StandardGlobal) :
    Takes home b (Account.expose host fuel b name g) (b.expose host fuel name g) := by
  cases g with
  | function f => exact (courses home host fuel).setGlobal b name (.function (.standard f)) hb
  | table methods => exact takes_registerModule host fuel hb name _

theorem takes_exposeAll (globals : List (String × StandardGlobal)) :
    Takes home b (Account.exposeAll host fuel b globals) (exposeAll host fuel b globals) := by
  induction globals generalizing b with
  | nil => exact takes_some .start
  | cons g rest ih =>
    exact takes_onward (takes_expose host fuel hb g.1 g.2) fun b' _ hdone => ih (hdone.back hb).1

theorem takes_install : Takes home b (Account.install host fuel b) (b.install host fuel) := by
  simp only [Account.install, install, withSession]
  cases b.session with
  | none => exact takes_some .start
  | some s =>
    dsimp only
    split
    · exact takes_some .start
    · exact takes_next (takes_exposeAll host fuel hb standardGlobals) fun b' _ =>
        takes_some (Aside.course (.installed s.id))

theorem takes_evaluateUi (source chunk : String) :
    Takes home b (Account.evaluateUi host fuel b source chunk) (b.evaluateUi host fuel source chunk) := by
  have hreleased : Course home b [] b.release.2 := Aside.course .release
  have hinstalled := takes_after hreleased (takes_install host fuel (hreleased.back hb).1)
  refine takes_onward hinstalled fun b₁ _ hfirst => ?_
  have hexecuted := (courses home host fuel).query (fun _ => false) b₁ (.execute source chunk) (hfirst.back hb).1
  exact takes_next hexecuted fun b₂ v => takes_some (dropAll_course b₂ _)

end

section
variable {home : SessionId} {b b' : Bridge}

theorem step_course (hb : home.opening < b.openings) (step : Bridge.Step) (r : Reply)
    (h : step.run b = some (r, b')) : Course home b (Account.step b step) b' := by
  obtain ⟨host, fuel, elsewhere, operation⟩ := step
  have hmap : ∀ {α β : Type} {calls : List HostCall} {a : Answer α} {f : Except ScriptError α → β} {r : β},
      Takes home b calls a → a.map (fun r => (f r.1, r.2)) = some (r, b') → Course home b calls b' := by
    intro α β calls a f r ha h
    obtain ⟨⟨x, b₁⟩, hx, heq⟩ := Option.map_eq_some_iff.mp h
    obtain ⟨-, rfl⟩ := Prod.mk.inj heq
    exact ha x b₁ hx
  have hplain : ∀ {reply : Reply} {c : Bridge} {calls : List HostCall}, Course home b calls c →
      some (reply, c) = some (r, b') → Course home b calls b' := by
    intro reply c calls hc h
    obtain ⟨-, rfl⟩ := Prod.mk.inj (Option.some.inj h)
    exact hc
  cases operation with
  | query q => exact hmap ((courses home host fuel).query elsewhere b q hb) h
  | setGlobal name v => exact hmap ((courses home host fuel).setGlobal b name v hb) h
  | compile source chunk => exact hplain (Aside.course (.compile source chunk)) h
  | registerFunction name f => exact hmap ((courses home host fuel).setGlobal b name (.function f) hb) h
  | registerModule name methods => exact hmap (takes_registerModule host fuel hb name methods) h
  | install => exact hmap (takes_install host fuel hb) h
  | stateSnapshot => exact hplain .start h
  | runUi source chunk =>
    obtain ⟨⟨x, b₁⟩, hx, heq⟩ := Option.map_eq_some_iff.mp h
    obtain ⟨-, rfl⟩ := Prod.mk.inj heq
    exact diagnosed_course (takes_evaluateUi host fuel hb source chunk) hx
  | preview source =>
    obtain ⟨⟨x, b₁⟩, hx, heq⟩ := Option.map_eq_some_iff.mp h
    obtain ⟨⟨y, b₂⟩, hy, heq'⟩ := Option.map_eq_some_iff.mp hx
    obtain ⟨-, rfl⟩ := Prod.mk.inj heq
    obtain ⟨-, rfl⟩ := Prod.mk.inj heq'
    exact diagnosed_course (takes_evaluateUi host fuel hb source b.config.chunkName) hy
  | dispatch handle args =>
    obtain ⟨⟨x, b₁⟩, hx, heq⟩ := Option.map_eq_some_iff.mp h
    obtain ⟨-, rfl⟩ := Prod.mk.inj heq
    exact diagnosed_course ((courses home host fuel).query elsewhere b (.invoke handle args) hb) hx
  | pinned => exact hplain .start h
  | release => exact hplain (Aside.course .release) h
  | close => exact hplain (Aside.course .close) h
  | reset => exact hplain (Aside.course .reset) h
  | retain handle => exact hplain (Aside.course (.retain handle)) h
  | drop handle => exact hplain (Aside.course (.drop handle)) h

theorem performed_course (hb : home.opening < b.openings) (steps : List Bridge.Step) (replies : List Reply)
    (h : perform b steps = some (replies, b')) : Course home b (Account.perform b steps) b' := by
  induction steps generalizing b replies with
  | nil =>
    obtain ⟨-, rfl⟩ : _ ∧ b = b' := by simpa [perform] using h
    exact .start
  | cons step rest ih =>
    obtain ⟨⟨r, b₁⟩, hr, hrest⟩ := Option.bind_eq_some_iff.mp h
    obtain ⟨⟨rs, b₂⟩, hrs, heq⟩ := Option.map_eq_some_iff.mp hrest
    obtain ⟨-, rfl⟩ := Prod.mk.inj heq
    have hfirst := step_course hb step r hr
    simp only [Account.perform, hr]
    exact hfirst.trans (ih (hfirst.back hb).1 rs hrs)

end

end Bridge

end ScriptHost
