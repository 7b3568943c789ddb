import ScriptHost.Proofs.Hub.Resolve

/-!
# Operations of the host

A `Query` brings the host a value of a script; an `Operation` is anything that the host does with a bridge
while no call of it is under way.  `perform` does one operation after the other.  Between operations a
bridge is at rest, and every handle in a reply names a session that the bridge has opened.
-/

set_option autoImplicit false

namespace ScriptHost.Bridge
open Lua
open Hub (Idle)

namespace Query

def call : Query → Hub.Call
  | .execute source chunk => .execute source chunk
  | .callGlobal name args => .callGlobal name args
  | .invoke handle args => .invoke handle args
  | .getGlobal name => .getGlobal name

end Query

inductive Reply where
  | value (r : Except ScriptError Value)
  | unit (r : Except ScriptError Unit)
  | compiled (r : Except ScriptError Handle)
  | flag (r : Except ScriptError Bool)
  | state (r : Except ScriptError (Dict Value))
  | tree (r : Except Diagnostic (Option UiNode))
  | preview (p : Preview)
  | dispatched (r : Except Diagnostic Value)
  | count (n : Nat)
  | done

def Reply.handles : Reply → List Handle
  | .value (.ok v) => v.handles
  | .compiled (.ok handle) => [handle]
  | .tree r => treeHandles r
  | .preview (.tree n) => n.handles
  | .dispatched (.ok v) => v.handles
  | _ => []

inductive Operation where
  | query (q : Query)
  | setGlobal (name : String) (v : Value)
  | compile (source chunk : String)
  | registerFunction (name : String) (f : HostFn)
  | registerModule (name : String) (methods : List (String × HostFn))
  | install
  | stateSnapshot
  | runUi (source chunk : String)
  | preview (source : String)
  | dispatch (handle : Handle) (args : List Value)
  | pinned
  | release
  | close
  | reset
  | retain (handle : Handle)
  | drop (handle : Handle)

structure Step where
  host : Host
  fuel : Nat
  elsewhere : Handle → Bool
  operation : Operation

def Step.run (b : Bridge) (step : Step) : Option (Reply × Bridge) :=
  match step.operation with
  | .query q => (q.run step.host step.fuel step.elsewhere b).map fun r => (.value r.1, r.2)
  | .setGlobal name v => (b.setGlobal step.host step.fuel name v).map fun r => (.unit r.1, r.2)
  | .compile source chunk => some (.compiled (b.compile source chunk).1, (b.compile source chunk).2)
  | .registerFunction name f =>
    (b.registerFunction step.host step.fuel name f).map fun r => (.unit r.1, r.2)
  | .registerModule name methods =>
    (b.registerModule step.host step.fuel name methods).map fun r => (.unit r.1, r.2)
  | .install => (b.install step.host step.fuel).map fun r => (.flag r.1, r.2)
  | .stateSnapshot => some (.state b.stateSnapshot, b)
  | .runUi source chunk =>
    (b.runUiNamed step.host step.fuel source chunk).map fun r => (.tree r.1, r.2)
  | .preview source => (b.preview step.host step.fuel source).map fun r => (.preview r.1, r.2)
  | .dispatch handle args =>
    (b.dispatch step.host step.fuel step.elsewhere handle args).map fun r => (.dispatched r.1, r.2)
  | .pinned => some (.count b.pinned, b)
  | .release => some (.count b.release.1, b.release.2)
  | .close => some (.unit b.close.1, b.close.2)
  | .reset => some (.unit b.reset.1, b.reset.2)
  | .retain handle => some (.done, b.retain handle)
  | .drop handle => some (.done, b.drop handle)

def perform (b : Bridge) : List Step → Option (List Reply × Bridge)
  | [] => some ([], b)
  | step :: rest =>
    (step.run b).bind fun r => (perform r.2 rest).map fun s => (r.1 :: s.1, s.2)

theorem query_granted (host : Host) (fuel : Nat) (elsewhere : Handle → Bool) (b b' : Bridge)
    (q : Query) (r : Except ScriptError Value) (hb : b.Sound)
    (h : q.run host fuel elsewhere b = some (r, b')) :
    b'.Sound ∧ Later b b' ∧ Granted b b' (Hub.valueHandles r) := by
  apply Hub.call_granted host fuel elsewhere b b' q.call _ hb
  have hcall : q.call.run host fuel elsewhere b =
      (q.run host fuel elsewhere b).map fun r => (Hub.valueHandles r.1, r.2) := by
    cases q <;> rfl
  rw [hcall, h]
  rfl

structure AtRest (id : Nat) (config : Config) (b : Bridge) : Prop where
  named : b.id = id
  configured : b.config = config
  sound : b.Sound
  idle : Idle b

theorem start_atRest (id : Nat) (config : Config) : AtRest id config (.start id config) where
  named := rfl
  configured := rfl
  sound := start_sound id config
  idle := by
    refine ⟨rfl, fun s hs => ?_⟩
    obtain rfl := List.mem_singleton.mp hs
    rfl

theorem atRest_lingering {id : Nat} {config : Config} {b : Bridge} (hb : AtRest id config b) :
    b.lingering = [] := Hub.idle_lingering hb.sound hb.idle

def Named (b : Bridge) (handle : Handle) : Prop :=
  handle.session.bridge = b.id ∧ handle.session.opening < b.openings

/-- What an operation leaves behind: a bridge at rest, whose sessions were there before or were opened
since, and handles of sessions that it has opened. -/
structure Settles (id : Nat) (config : Config) (b b' : Bridge) (handles : List Handle) : Prop where
  rest : AtRest id config b'
  openings : b.openings ≤ b'.openings
  sessions : ∀ s' ∈ b'.sessions, (∃ s ∈ b.sessions, s'.id = s.id) ∨ b.openings ≤ s'.id.opening
  named : ∀ handle ∈ handles, Named b' handle

theorem settles_later {id : Nat} {config : Config} {b b' : Bridge} {handles : List Handle}
    (hb : AtRest id config b) (h : b'.Sound ∧ Later b b' ∧ Granted b b' handles) :
    Settles id config b b' handles := by
  obtain ⟨hsound, hlater, hg⟩ := h
  refine ⟨⟨hlater.id.trans hb.named, hlater.config.trans hb.configured, hsound,
    Hub.idle_later hlater hb.idle⟩, hlater.openings, fun s' hs' => ?_, fun handle hmem => ?_⟩
  · rcases hlater.kept s' hs' with ⟨s, hs, hk⟩ | ⟨hopening, -⟩
    · exact .inl ⟨s, hs, hk.id⟩
    · exact .inr hopening
  · exact ⟨(hg.named handle hmem).1.trans hlater.id.symm, (hg.named handle hmem).2⟩

theorem settles_plain {id : Nat} {config : Config} {b b' : Bridge} (hb : AtRest id config b)
    (h : b'.Sound ∧ Later b b') : Settles id config b b' [] :=
  settles_later hb ⟨h.1, h.2, granted_nil b b'⟩

theorem settles_leads {α : Type} {id : Nat} {config : Config} {b b' : Bridge} {a : Answer α}
    (hb : AtRest id config b)
    (ha : Leads (fun b b' => b.Sound → b'.Sound ∧ Later b b') b a) {f : Except ScriptError α → Reply}
    {r : Reply} (hf : ∀ r, (f r).handles = []) (h : (a.map fun r => (f r.1, r.2)) = some (r, b')) :
    Settles id config b b' r.handles := by
  obtain ⟨⟨x, b₁⟩, hx, heq⟩ := Option.map_eq_some_iff.mp h
  obtain ⟨rfl, rfl⟩ := Prod.mk.inj heq
  rw [hf]
  exact settles_plain hb (ha x b₁ hx hb.sound)

/-- Changing each session by itself, without its name, its runs and the rest of the bridge. -/
theorem settles_update {id : Nat} {config : Config} {b : Bridge} (hb : AtRest id config b)
    (session : SessionId) (f : Session → Session) (hid : ∀ s, (f s).id = s.id)
    (hruns : ∀ s, (f s).runs = s.runs) (hsound : (b.update session f).Sound) :
    Settles id config b (b.update session f) [] := by
  refine ⟨⟨hb.named, hb.configured, hsound, hb.idle.free, ?_⟩, Nat.le_refl _, ?_, by simp⟩
  · intro s hs
    rw [update_sessions] at hs
    obtain ⟨t, ht, rfl⟩ := List.mem_map.mp hs
    have hstill := hb.idle.still t ht
    split
    · rw [hruns, hstill]
    · exact hstill
  · intro s hs
    have hids := update_ids b session f hid
    obtain ⟨t, ht, heq⟩ := List.mem_map.mp (hids ▸ List.mem_map.mpr ⟨s, hs, rfl⟩)
    exact .inl ⟨t, ht, heq.symm⟩

theorem step_settles {id : Nat} {config : Config} {b b' : Bridge} (hb : AtRest id config b)
    (step : Step) (r : Reply) (h : step.run b = some (r, b')) :
    Settles id config b b' r.handles := by
  obtain ⟨host, fuel, elsewhere, operation⟩ := step
  have hall := runs_lead later_steady host fuel
  have hanswer : ∀ {q : Query} {x : Except ScriptError Value} {b' : Bridge},
      q.run host fuel elsewhere b = some (x, b') → Settles id config b b' (Hub.valueHandles x) :=
    fun hq => settles_later hb (query_granted host fuel elsewhere b _ _ _ hb.sound hq)
  have htree : ∀ {source chunk : String} {x : Except Diagnostic (Option UiNode)} {b' : Bridge},
      b.runUiNamed host fuel source chunk = some (x, b') → Settles id config b b' (treeHandles x) :=
    fun hx => settles_later hb (runUiNamed_granted host fuel b _ _ _ _ hb.sound hx)
  cases operation with
  | query q =>
    obtain ⟨⟨x, b₁⟩, hx, heq⟩ := Option.map_eq_some_iff.mp h
    obtain ⟨rfl, rfl⟩ := Prod.mk.inj heq
    cases x <;> exact hanswer hx
  | setGlobal name v => exact settles_leads hb (hall.setGlobal b name v) (fun _ => rfl) h
  | compile source chunk =>
    obtain ⟨hsound, hlater⟩ := compile_later b source chunk hb.sound
    rcases hc : b.compile source chunk with ⟨x, b₁⟩
    simp only [Step.run, hc, Option.some.injEq, Prod.mk.injEq] at h
    obtain ⟨rfl, rfl⟩ := h
    rw [hc] at hsound hlater
    cases x with
    | error e => exact settles_plain hb ⟨hsound, hlater⟩
    | ok handle =>
      exact settles_later hb ⟨hsound, hlater, compile_grants b b₁ source chunk handle hb.sound hc⟩
  | registerFunction name f =>
    exact settles_leads hb (hall.setGlobal b name (.function f)) (fun _ => rfl) h
  | registerModule name methods =>
    exact settles_leads hb (registerModule_leads later_steady host fuel b name methods)
      (fun _ => rfl) h
  | install => exact settles_leads hb (install_leads later_steady host fuel b) (fun _ => rfl) h
  | stateSnapshot =>
    obtain ⟨rfl, rfl⟩ : _ ∧ b = b' := by simpa [Step.run] using h
    exact settles_plain hb ⟨hb.sound, later_refl b⟩
  | runUi source chunk =>
    obtain ⟨⟨x, b₁⟩, hx, heq⟩ := Option.map_eq_some_iff.mp h
    obtain ⟨rfl, rfl⟩ := Prod.mk.inj heq
    exact htree hx
  | preview source =>
    obtain ⟨⟨x, b₁⟩, hx, heq⟩ := Option.map_eq_some_iff.mp h
    obtain ⟨⟨y, b₂⟩, hy, heq'⟩ := Option.map_eq_some_iff.mp hx
    obtain ⟨rfl, rfl⟩ := Prod.mk.inj heq
    obtain ⟨rfl, rfl⟩ := Prod.mk.inj heq'
    rcases y with d | (_ | n) <;> exact htree hy
  | dispatch handle args =>
    obtain ⟨⟨x, b₁⟩, hx, heq⟩ := Option.map_eq_some_iff.mp h
    obtain ⟨⟨y, b₂⟩, hy, heq'⟩ := Option.map_eq_some_iff.mp hx
    obtain ⟨rfl, rfl⟩ := Prod.mk.inj heq
    obtain ⟨rfl, rfl⟩ := Prod.mk.inj heq'
    have hq : (Query.invoke handle args).run host fuel elsewhere b = some (y, b₂) := hy
    cases y <;> exact hanswer hq
  | pinned =>
    obtain ⟨rfl, rfl⟩ : _ ∧ b = b' := by simpa [Step.run] using h
    exact settles_plain hb ⟨hb.sound, later_refl b⟩
  | release =>
    obtain ⟨rfl, rfl⟩ : _ ∧ b.release.2 = b' := by simpa [Step.run] using h
    exact settles_plain hb (later_release hb.sound)
  | close =>
    obtain ⟨rfl, rfl⟩ : _ ∧ b.close.2 = b' := by simpa [Step.run] using h
    exact settles_plain hb (later_close hb.sound)
  | reset =>
    obtain ⟨rfl, rfl⟩ : _ ∧ b.reset.2 = b' := by simpa [Step.run] using h
    exact settles_plain hb (later_reset hb.sound)
  | retain handle =>
    obtain ⟨rfl, rfl⟩ : _ ∧ b.retain handle = b' := by simpa [Step.run] using h
    exact settles_update hb handle.session _ (fun s => s.retain_id handle)
      (fun s => s.retain_runs handle)
      (sound_retain hb.sound handle)
  | drop handle =>
    obtain ⟨rfl, rfl⟩ : _ ∧ b.drop handle = b' := by simpa [Step.run] using h
    exact settles_update hb handle.session _ (fun s => s.drop_id handle)
      (fun s => s.drop_runs handle)
      (sound_drop hb.sound handle)

theorem settles_trans {id : Nat} {config : Config} {a b c : Bridge} {handles more : List Handle}
    (h : Settles id config a b handles) (h' : Settles id config b c more) :
    Settles id config a c (handles ++ more) := by
  have hopenings := h.openings
  refine ⟨h'.rest, Nat.le_trans hopenings h'.openings, fun s hs => ?_, fun handle hmem => ?_⟩
  · rcases h'.sessions s hs with ⟨t, ht, hid⟩ | hopening
    · rw [hid]
      exact h.sessions t ht
    · exact .inr (Nat.le_trans hopenings hopening)
  · rcases List.mem_append.mp hmem with hmem | hmem
    · obtain ⟨hbridge, hopening⟩ := h.named handle hmem
      exact ⟨hbridge.trans (h.rest.named.trans h'.rest.named.symm),
        Nat.lt_of_lt_of_le hopening h'.openings⟩
    · exact h'.named handle hmem

/-- However the host goes on, it finds the bridge at rest, and its handles are of sessions that were
opened. -/
theorem performed_settles {id : Nat} {config : Config} {b b' : Bridge} (hb : AtRest id config b)
    (steps : List Step) (replies : List Reply) (h : perform b steps = some (replies, b')) :
    Settles id config b b' (replies.flatMap Reply.handles) := by
  induction steps generalizing b replies with
  | nil =>
    obtain ⟨rfl, rfl⟩ : [] = replies ∧ b = b' := by simpa [perform] using h
    exact settles_plain hb ⟨hb.sound, later_refl b⟩
  | cons step rest ih =>
    obtain ⟨⟨r, b₁⟩, hr, hrest⟩ := Option.bind_eq_some_iff.mp h
    obtain ⟨⟨rs, b₂⟩, hrs, heq⟩ := Option.map_eq_some_iff.mp hrest
    obtain ⟨rfl, rfl⟩ := Prod.mk.inj heq
    have hfirst := step_settles hb step r hr
    exact settles_trans hfirst (ih hfirst.rest rs hrs)

end ScriptHost.Bridge
