import ScriptHost.Proofs.Bridge.Account
import ScriptHost.Proofs.Value.Functions

/-!
# One walk through all runs

The functions of a bridge that run scripts are all recursive in one another.  A `Walk` says what is to be
shown along the way: what holds of a bridge before a step, of the machines and of their heaps, and how the
bridge after some steps is related to the one before and to the calls on the account.  Its laws speak of
single steps only, and `walked` is the one induction over all of them; whatever else is shown of runs is a
walk.  Two hosts go side by side, so a walk also shows where they are not told apart.
-/

set_option autoImplicit false

namespace ScriptHost
open Lua

def Request.values : Request → List Value
  | .callGlobal _ args => args
  | .invoke _ args => args
  | .setGlobal _ v => [v]
  | _ => []

/-- Two host functions that ask the same and end alike, whatever they get for what they ask. -/
inductive HostAction.Matches (may : Request → Prop) (sent : Value → Prop)
    (gets : Request → Except ScriptError Value → Prop) : HostAction → HostAction → Prop
  | done (v : Value) (hv : sent v) : Matches may sent gets (.done v) (.done v)
  | fail (e : ScriptError) : Matches may sent gets (.fail e) (.fail e)
  | panic (message : Option String) : Matches may sent gets (.panic message) (.panic message)
  | ask (r : Request) (next next' : Except ScriptError Value → HostAction) (hr : may r)
      (hn : ∀ x, gets r x → Matches may sent gets (next x) (next' x)) :
      Matches may sent gets (.ask r next) (.ask r next')

namespace Bridge

def callStandard (b : Bridge) (id : SessionId) (f : StandardFn) (args : List Datum) :
    Except ScriptError Datum × Bridge :=
  match b.outwardAll id args with
  | (.error e, b₁) => (.error e, b₁.unpinSince b)
  | (.ok vs, b₁) =>
    match b₁.standard id f vs with
    | (.error e, b₂) => (.error e, b₂.unpinSince b)
    | (.ok v, b₂) => ((b₂.inward id v).1, (b₂.inward id v).2.unpinSince b)

def standardCall (b : Bridge) (id : SessionId) (f : StandardFn) (args : List Datum) : HostCall :=
  ⟨.standard f, args, (b.outwardAll id args).1, (b.callStandard id f args).1⟩

theorem callHost_standard (host : Host) (fuel : Nat) (b : Bridge) (id : SessionId) (f : StandardFn)
    (args : List Datum) :
    callHost host (fuel + 2) b id (.standard f) args = some (b.callStandard id f args) := by
  simp only [callHost, serve, callStandard]
  rcases b.outwardAll id args with ⟨e | vs, b₁⟩
  · rfl
  · dsimp only
    rcases b₁.standard id f vs with ⟨e | v, b₂⟩ <;> rfl

/-- Fewer steps give the same answer or none. -/
theorem callHost_callStandard {host : Host} {fuel : Nat} {b b' : Bridge} {id : SessionId} {f : StandardFn}
    {args : List Datum} {r : Except ScriptError Datum}
    (h : callHost host fuel b id (.standard f) args = some (r, b')) :
    b.callStandard id f args = (r, b') := by
  cases fuel with
  | zero => cases h
  | succ fuel =>
    cases fuel with
    | succ fuel => exact Option.some.inj ((callHost_standard host fuel b id f args).symm.trans h)
    | zero =>
      simp only [callHost, serve] at h
      rw [callStandard]
      rcases hargs : b.outwardAll id args with ⟨e | vs, b₁⟩
      · rw [hargs] at h
        exact Option.some.inj h
      · rw [hargs] at h
        cases h

/-- What a standard function does has nothing to do with the host. -/
theorem callHost_same (host host' : Host) (fuel : Nat) (b : Bridge) (id : SessionId) (f : StandardFn)
    (args : List Datum) :
    callHost host' fuel b id (.standard f) args = callHost host fuel b id (.standard f) args := by
  obtain _ | _ | fuel := fuel
  · rfl
  · rfl
  · rw [callHost_standard, callHost_standard]

theorem guarded_busy {α : Type} {b : Bridge} (hb : b.busy = true) (f : Bridge → Answer α) :
    b.guarded f = some (.error reentrant, b) := by
  simp only [guarded, enter, hb, if_true]

theorem guarded_free {α : Type} {b : Bridge} (hb : b.busy = false) (f : Bridge → Answer α) :
    b.guarded f = (f { b with busy := true }).map fun r => (r.1, r.2.leave) := by
  simp only [guarded, enter, hb, Bool.false_eq_true, if_false]

theorem enter_free {b : Bridge} (hb : b.busy = false) : b.enter = .ok { b with busy := true } := by
  simp only [enter, hb, Bool.false_eq_true, if_false]

theorem busy_back {b : Bridge} (hfree : b.busy = false) : ({ b with busy := true } : Bridge).leave = b := by
  simp only [leave, ← hfree]

theorem guarded_open {α : Type} {b : Bridge} {s : Session} (hs : b.session = some s)
    (hfree : b.busy = false) (f : Bridge → Session → Answer α) :
    (b.guarded fun b => b.withSession (f b)) =
      (f { b with busy := true } s).map fun r => (r.1, r.2.leave) := by
  rw [guarded_free hfree, withSession, show ({ b with busy := true } : Bridge).session = some s from hs]

theorem guarded_closed {α : Type} {b : Bridge} (hs : b.session = none) (hfree : b.busy = false)
    (f : Bridge → Session → Answer α) :
    (b.guarded fun b => b.withSession (f b)) = some (.error .closed, b) := by
  have hclosed : ({ b with busy := true } : Bridge).withSession (f { b with busy := true }) =
      some (.error .closed, { b with busy := true }) := by simp only [withSession, hs]
  rw [guarded_free hfree, hclosed, Option.map_some, busy_back hfree]

def Abreast {α : Type} (a a' : Option α) (P : α → Prop) : Prop := a' = a ∧ ∀ x, a = some x → P x

section
variable {α β : Type} {a a' : Option α} {P Q : α → Prop}

theorem abreast_none : Abreast (none : Option α) none P := ⟨rfl, fun _ h => by cases h⟩

theorem abreast_some {x : α} (h : P x) : Abreast (some x) (some x) P :=
  ⟨rfl, fun _ hy => Option.some.inj hy ▸ h⟩

theorem abreast_imp (h : Abreast a a' P) (hPQ : ∀ x, P x → Q x) : Abreast a a' Q :=
  ⟨h.1, fun x hx => hPQ x (h.2 x hx)⟩

theorem abreast_map {R : β → Prop} (h : Abreast a a' P) (f : α → β) (hf : ∀ x, P x → R (f x)) :
    Abreast (a.map f) (a'.map f) R := by
  refine ⟨congrArg (Option.map f) h.1, fun y hy => ?_⟩
  obtain ⟨x, hx, rfl⟩ := Option.map_eq_some_iff.mp hy
  exact hf x (h.2 x hx)

end

/-- A property of machines that their turns keep, with what it says of the heaps that they leave and of the
host functions that they call. -/
structure Tends (heap : Heap → Prop) (function : HostFn → Prop) (machine : Machine → Prop) : Prop where
  running : ∀ {m m'}, machine m → m.advance = .running m' → machine m'
  finished : ∀ {m values h}, machine m → m.advance = .finished values h → heap h
  failed : ∀ {m e h}, machine m → m.advance = .failed e h → heap h
  host : ∀ {m f args h stack}, machine m → m.advance = .host f args h stack →
    (heap h ∧ function f) ∧ ∀ h', heap h' →
      (∀ d, machine (.resume [d] h' stack)) ∧ ∀ e, machine (.interrupt e h' stack)
  start : ∀ {h} f args, heap h → machine (.start f args h)
  reading : ∀ {h} name, heap h → machine (.reading name h)
  writing : ∀ {h} name d, heap h → machine (.writing name d h)
  describing : ∀ {h} d, heap h → machine (.describing d h)

theorem tends_any : Tends (fun _ => True) (fun _ => True) (fun _ => True) := by
  constructor <;> simp

/-- What is shown along all ways to run a script in a bridge. -/
structure Walk (host : Host) where
  heap : Heap → Prop := fun _ => True
  machine : Machine → Prop := fun _ => True
  function : HostFn → Prop := fun _ => True
  -- what the host sends
  sent : Value → Prop := fun _ => True
  -- what the host is sent when a script calls it
  received : Value → Prop := fun _ => True
  may : Request → Prop := fun _ => True
  -- what the host gets for what it asks
  gets : Request → Except ScriptError Value → Prop := fun _ _ => True
  -- what runs answer
  result : Except ScriptError Value → Prop := fun _ => True
  -- before a call that marks the bridge
  outer : Bridge → Prop := fun _ => True
  inner : Bridge → Prop := fun _ => True
  -- while a session runs
  within : SessionId → Bridge → Prop := fun _ _ => True
  -- from a bridge to a later one while a session runs, with the calls made meanwhile
  turns : SessionId → List HostCall → Bridge → Bridge → Prop
  -- from a bridge to a later one while a host function is served
  asks : List HostCall → Bridge → Bridge → Prop
  -- the same for a run of a session with its answer
  brings : SessionId → List HostCall → Bridge → Bridge → Except ScriptError Value → Prop
  tends : Tends heap function machine := by exact tends_any
  outer_inner : ∀ {b}, inner b → outer b := by intros; trivial
  inner_busy : ∀ {b}, outer b → b.busy = true → inner b := by intros; trivial
  inner_marked : ∀ {b}, outer b → b.busy = false → inner { b with busy := true } := by intros; trivial
  inner_within : ∀ {id b}, within id b → inner b := by intros; trivial
  inner_kept : ∀ {calls b b'}, asks calls b b' → inner b → inner b' := by intros; trivial
  within_open : ∀ {b s}, inner b → b.session = some s → within s.id b := by intros; trivial
  within_kept : ∀ {id calls b b'}, asks calls b b' → within id b → within id b' := by intros; trivial
  within_entered : ∀ {id b}, within id b → within id (b.enterRun id) := by intros; trivial
  heap_open : ∀ {b s}, inner b → b.session = some s → heap s.heap := by intros; trivial
  heap_taken : ∀ {b} id, inner b → heap (b.takeHeap id).1 := by intros; trivial
  heap_load : ∀ {h source chunk f h'}, heap h → h.load source chunk = .ok (f, h') →
    heap h' := by intros; trivial
  sent_asked : ∀ {r}, may r → ∀ v ∈ r.values, sent v := by intros; trivial
  received_out : ∀ {b id args vs b'}, inner b → b.outwardAll id args = (.ok vs, b') →
    ∀ v ∈ vs, received v := by intros; trivial
  gets_reply : ∀ {fuel b r x b'}, inner b → may r → result x → reply host fuel b r = some (x, b') →
    gets r x := by intros; trivial
  result_error : ∀ e, result (.error e) := by intros; trivial
  result_hostless : ∀ {v : Value}, v.Hostless → result (.ok v) := by intros; trivial
  result_out : ∀ {b} id d, inner b → result (b.outward id d).1 := by intros; trivial
  turns_refl : ∀ {id b}, within id b → turns id [] b b
  turns_trans : ∀ {id calls more a b c}, within id a → turns id calls a b → turns id more b c →
    turns id (calls ++ more) a c
  turns_put : ∀ {id b h}, within id b → heap h → turns id [] b (b.putHeap id h)
  turns_take : ∀ {id b}, within id b → turns id [] b (b.takeHeap id).2
  turns_in : ∀ {id b v}, within id b → sent v → turns id [] b (b.inward id v).2
  turns_inAll : ∀ {id b vs}, within id b → (∀ v ∈ vs, sent v) → turns id [] b (b.inwardAll id vs).2
  turns_standard : ∀ {id b f} args, within id b → function (.standard f) →
    turns id [b.standardCall id f args] b (b.callStandard id f args).2
  turns_custom : ∀ {id calls b c name serial} args r, within id b → function (.custom name serial) →
    asks calls b c →
      turns id (⟨.custom name serial, args, (b.outwardAll id args).1, r⟩ :: calls) b (c.unpinSince b)
  asks_refl : ∀ {b}, outer b → asks [] b b
  asks_trans : ∀ {calls more a b c}, inner a → asks calls a b → asks more b c → asks (calls ++ more) a c
  asks_turns : ∀ {id calls b b'}, within id b → turns id calls b b' → asks calls b b'
  asks_out : ∀ {id b} args, within id b → asks [] b (b.outwardAll id args).2
  asks_release : ∀ {b}, may .release → inner b → asks [] b b.release.2
  asks_close : ∀ {b}, may .close → inner b → asks [] b b.close.2
  asks_reset : ∀ {b}, may .reset → inner b → asks [] b b.reset.2
  asks_brings : ∀ {id calls b b' r}, outer b → brings id calls b b' r → asks calls b b'
  brings_error : ∀ {id b} e, within id b → brings id [] b b (.error e)
  brings_out : ∀ {id b} d, within id b → brings id [] b (b.outward id d).2 (b.outward id d).1
  brings_after : ∀ {id calls more a b c r}, within id a → turns id calls a b → brings id more b c r →
    brings id (calls ++ more) a c r
  brings_left : ∀ {id calls b b' r}, within id b → brings id calls (b.enterRun id) b' r →
    brings id calls b (b'.leaveRun id) r
  brings_marked : ∀ {s calls b b' r}, outer b → b.busy = false → b.session = some s →
    brings s.id calls { b with busy := true } b' r → brings s.id calls b b'.leave r

namespace Walk

section
variable {host : Host} (W : Walk host) {id : SessionId} {calls more : List HostCall} {a b c : Bridge}

structure Queried (calls : List HostCall) (b : Bridge) (x : Except ScriptError Value × Bridge) : Prop where
  asks : W.asks calls b x.2
  result : W.result x.1
  brings : ∀ s, b.session = some s → W.brings s.id calls b x.2 x.1
  closed : b.session = none → ∃ e, x.1 = .error e

theorem within_turns (hb : W.within id b) (h : W.turns id calls b c) : W.within id c :=
  W.within_kept (W.asks_turns hb h) hb

theorem turns_after (ha : W.within id a) (h : W.turns id [] a b) (h' : W.turns id calls b c) :
    W.turns id calls a c := W.turns_trans ha h h'

theorem turns_before (ha : W.within id a) (h : W.turns id calls a b) (h' : W.turns id [] b c) :
    W.turns id calls a c := List.append_nil calls ▸ W.turns_trans ha h h'

theorem asks_after (ha : W.inner a) (h : W.asks [] a b) (h' : W.asks calls b c) :
    W.asks calls a c := W.asks_trans ha h h'

theorem asks_before (ha : W.inner a) (h : W.asks calls a b) (h' : W.asks [] b c) :
    W.asks calls a c := List.append_nil calls ▸ W.asks_trans ha h h'

theorem brings_before (ha : W.within id a) (h : W.turns id calls a b) {r : Except ScriptError Value}
    (h' : W.brings id [] b c r) : W.brings id calls a c r :=
  List.append_nil calls ▸ W.brings_after ha h h'

/-- A run of the session that is open. -/
theorem queried_open (hb : W.outer b) {s : Session} (hs : b.session = some s)
    {x : Except ScriptError Value × Bridge} (h : W.brings s.id calls b x.2 x.1) (hx : W.result x.1) :
    W.Queried calls b x where
  asks := W.asks_brings hb h
  result := hx
  brings t ht := Option.some.inj (hs.symm.trans ht) ▸ h
  closed hnone := by cases hs.symm.trans hnone

/-- An error at once, from a bridge that is left as it is. -/
theorem queried_error (hb : W.outer b) (e : ScriptError) : W.Queried [] b (.error e, b) where
  asks := W.asks_refl hb
  result := W.result_error e
  brings s hs := by
    by_cases hbusy : b.busy = true
    · exact W.brings_error e (W.within_open (W.inner_busy hb hbusy) hs)
    · have hfree : b.busy = false := by simpa using hbusy
      have hmarked := W.brings_error e (W.within_open (W.inner_marked hb hfree) hs)
      have hleft := W.brings_marked hb hfree hs hmarked
      rwa [busy_back hfree] at hleft
  closed _ := ⟨e, rfl⟩

/-- A guarded call of a session and what its account says. -/
theorem abreast_guarded (hb : W.outer b) {f g : Bridge → Session → Answer Value}
    {calls : Bridge → Session → List HostCall}
    (h : ∀ b s, W.inner b → b.session = some s → Abreast (f b s) (g b s) fun x =>
      W.brings s.id (calls b s) b x.2 x.1 ∧ W.result x.1) :
    Abreast (b.guarded fun b => b.withSession (f b)) (b.guarded fun b => b.withSession (g b))
      (W.Queried (match b.enter, b.session with
        | .ok b, some s => calls b s
        | _, _ => []) b) := by
  by_cases hbusy : b.busy = true
  · rw [guarded_busy hbusy, guarded_busy hbusy]
    simp only [enter, hbusy, if_true]
    exact abreast_some (W.queried_error hb reentrant)
  · have hfree : b.busy = false := by simpa using hbusy
    obtain hs | ⟨s, hs⟩ := Option.eq_none_or_eq_some b.session
    · rw [guarded_closed hs hfree f, guarded_closed hs hfree g, enter_free hfree, hs]
      exact abreast_some (W.queried_error hb .closed)
    · have hcalls : (match b.enter, b.session with
          | .ok b, some s => calls b s
          | _, _ => []) = calls { b with busy := true } s := by rw [enter_free hfree, hs]
      rw [guarded_open hs hfree f, guarded_open hs hfree g, hcalls]
      exact abreast_map (h _ s (W.inner_marked hb hfree) hs) _ fun x hx =>
        W.queried_open hb hs (W.brings_marked hb hfree hs hx.1) hx.2

end

structure Walked {host : Host} (W : Walk host) (host' : Host) (fuel : Nat) : Prop where
  drive : ∀ b id m, W.within id b → W.machine m →
    Abreast (drive host fuel b id m) (drive host' fuel b id m) fun x =>
      W.heap x.2.1 ∧ W.turns id (Account.drive host fuel b id m) b x.2.2
  callHost : ∀ b id f args, W.within id b → W.function f →
    Abreast (callHost host fuel b id f args) (callHost host' fuel b id f args) fun x =>
      W.turns id (Account.callHost host fuel b id f args) b x.2
  serve : ∀ b id name serial args, W.inner b → (∀ v ∈ args, W.received v) →
    Abreast (serve host fuel b id (.custom name serial) args)
      (serve host' fuel b id (.custom name serial) args) fun x =>
      W.asks (Account.serve host fuel b (.custom name serial) args) b x.2 ∧ ∀ v, x.1 = .ok v → W.sent v
  follow : ∀ b action action', W.inner b → HostAction.Matches W.may W.sent W.gets action action' →
    Abreast (follow host fuel b action) (follow host' fuel b action') fun x =>
      W.asks (Account.follow host fuel b action) b x.2 ∧ ∀ v, x.1 = .ok v → W.sent v
  reply : ∀ b r, W.inner b → W.may r →
    Abreast (reply host fuel b r) (reply host' fuel b r) fun x =>
      W.asks (Account.reply host fuel b r) b x.2 ∧ W.result x.1
  explain : ∀ depth b id e h, W.within id b → W.heap h →
    Abreast (explain host fuel depth b id e h) (explain host' fuel depth b id e h) fun x =>
      W.turns id (Account.explain host fuel depth b id e h) b x.2
  -- a run stays entered until its caller leaves it
  run : ∀ b id machine, W.within id b → (∀ h, W.heap h → W.machine (machine h)) →
    Abreast (run host fuel b id machine) (run host' fuel b id machine) fun x =>
      W.turns id (Account.run host fuel b id machine) (b.enterRun id) x.2
  runOutward : ∀ b id machine, W.within id b → (∀ h, W.heap h → W.machine (machine h)) →
    Abreast (runOutward host fuel b id machine) (runOutward host' fuel b id machine) fun x =>
      W.brings id (Account.runOutward host fuel b id machine) b x.2 x.1 ∧ W.result x.1
  executeNamed : ∀ b source chunk, W.outer b →
    Abreast (executeNamed host fuel b source chunk) (executeNamed host' fuel b source chunk)
      (W.Queried (Account.executeNamed host fuel b source chunk) b)
  callWith : ∀ b id f args, W.within id b → (∀ v ∈ args, W.sent v) →
    Abreast (callWith host fuel b id f args) (callWith host' fuel b id f args) fun x =>
      W.brings id (Account.callWith host fuel b id f args) b x.2 x.1 ∧ W.result x.1
  callGlobal : ∀ b name args, W.outer b → (∀ v ∈ args, W.sent v) →
    Abreast (callGlobal host fuel b name args) (callGlobal host' fuel b name args)
      (W.Queried (Account.callGlobal host fuel b name args) b)
  invokeLive : ∀ b handle args, W.outer b → (∀ v ∈ args, W.sent v) →
    Abreast (invokeLive host fuel b handle args) (invokeLive host' fuel b handle args)
      (W.Queried (Account.invokeLive host fuel b handle args) b)
  getGlobal : ∀ b name, W.inner b →
    Abreast (getGlobal host fuel b name) (getGlobal host' fuel b name)
      (W.Queried (Account.getGlobal host fuel b name) b)
  setGlobal : ∀ b name v, W.inner b → W.sent v →
    Abreast (setGlobal host fuel b name v) (setGlobal host' fuel b name v) fun x =>
      W.asks (Account.setGlobal host fuel b name v) b x.2

section
variable {host host' : Host} {W : Walk host} {fuel : Nat} (ih : Walked W host' fuel)
include ih

theorem drive_walked (b : Bridge) (id : SessionId) (m : Machine) (hb : W.within id b)
    (hm : W.machine m) :
    Abreast (Bridge.drive host (fuel + 1) b id m) (Bridge.drive host' (fuel + 1) b id m) fun x =>
      W.heap x.2.1 ∧ W.turns id (Account.drive host (fuel + 1) b id m) b x.2.2 := by
  simp only [Bridge.drive, Account.drive]
  cases ha : m.advance with
  | running m' => exact ih.drive b id m' hb (W.tends.running hm ha)
  | finished values h => exact abreast_some ⟨W.tends.finished hm ha, W.turns_refl hb⟩
  | failed e h => exact abreast_some ⟨W.tends.failed hm ha, W.turns_refl hb⟩
  | host f args h stack =>
    obtain ⟨⟨hheap, hf⟩, honward⟩ := W.tends.host hm ha
    have hput := W.turns_put hb hheap
    obtain ⟨hsame, hcalled⟩ := ih.callHost (b.putHeap id h) id f args (W.within_turns hb hput) hf
    simp only [hsame]
    cases hcall : Bridge.callHost host fuel (b.putHeap id h) id f args with
    | none => exact abreast_none
    | some x =>
      obtain ⟨r, b₁⟩ := x
      have hdone := W.turns_after hb hput (hcalled _ hcall)
      have hb₁ := W.within_turns hb hdone
      have htaken := W.turns_before hb hdone (W.turns_take hb₁)
      have hb₂ := W.within_turns hb htaken
      obtain ⟨hresumes, hinterrupts⟩ := honward _ (W.heap_taken id (W.inner_within hb₁))
      cases r with
      | ok d =>
        exact abreast_imp (ih.drive _ id _ hb₂ (hresumes d)) fun x hx => ⟨hx.1, W.turns_trans hb htaken hx.2⟩
      | error e =>
        exact abreast_imp (ih.drive _ id _ hb₂ (hinterrupts e)) fun x hx =>
          ⟨hx.1, W.turns_trans hb htaken hx.2⟩

theorem callHost_walked (b : Bridge) (id : SessionId) (f : HostFn) (args : List Datum)
    (hb : W.within id b) (hf : W.function f) :
    Abreast (Bridge.callHost host (fuel + 1) b id f args) (Bridge.callHost host' (fuel + 1) b id f args)
      fun x => W.turns id (Account.callHost host (fuel + 1) b id f args) b x.2 := by
  cases f with
  | standard f =>
    refine ⟨callHost_same host host' (fuel + 1) b id f args, fun ⟨r, b'⟩ hcall => ?_⟩
    have hcalled : W.turns id [⟨.standard f, args, (b.outwardAll id args).1, r⟩] b b' := by
      have hstandard := W.turns_standard args hb hf
      rwa [standardCall, callHost_callStandard hcall] at hstandard
    have hserved : ∀ b vs, Account.serve host fuel b (.standard f) vs = [] := by
      intro b vs
      cases fuel <;> rfl
    simp only [Account.callHost, hcall, hserved, List.append_nil]
    split <;> exact hcalled
  | custom name serial =>
    have hinner := W.inner_within hb
    have hargs := W.asks_out args hb
    have hcustom : ∀ {calls c} r, W.asks calls b c →
        W.turns id (⟨.custom name serial, args, (b.outwardAll id args).1, r⟩ :: calls) b (c.unpinSince b) :=
      fun r h => W.turns_custom args r hb hf h
    simp only [Account.callHost, Bridge.callHost]
    rcases hreceived : b.outwardAll id args with ⟨e | vs, b₁⟩
    · rw [hreceived] at hargs hcustom
      exact abreast_some (hcustom _ hargs)
    · rw [hreceived] at hargs hcustom
      obtain ⟨hsame, hserve⟩ := ih.serve b₁ id name serial vs (W.inner_kept hargs hinner)
        (W.received_out hinner hreceived)
      simp only [hsame]
      cases hserved : Bridge.serve host fuel b₁ id (.custom name serial) vs with
      | none => exact abreast_none
      | some x =>
        obtain ⟨r, b₂⟩ := x
        obtain ⟨hdone, hsent⟩ := hserve _ hserved
        have hsofar := W.asks_after hinner hargs hdone
        cases r with
        | error e => exact abreast_some (hcustom _ hsofar)
        | ok v =>
          have hb₂ := W.within_kept hsofar hb
          have hback := W.asks_turns hb₂ (W.turns_in hb₂ (hsent v rfl))
          exact abreast_some (hcustom _ (W.asks_before hinner hsofar hback))

theorem serve_walked (hhost : ∀ name args, (∀ v ∈ args, W.received v) →
      HostAction.Matches W.may W.sent W.gets (host name args) (host' name args))
    (b : Bridge) (id : SessionId) (name : String) (serial : Nat) (args : List Value) (hb : W.inner b)
    (hargs : ∀ v ∈ args, W.received v) :
    Abreast (Bridge.serve host (fuel + 1) b id (.custom name serial) args)
      (Bridge.serve host' (fuel + 1) b id (.custom name serial) args) fun x =>
      W.asks (Account.serve host (fuel + 1) b (.custom name serial) args) b x.2 ∧
        ∀ v, x.1 = .ok v → W.sent v :=
  ih.follow b _ _ hb (hhost name args hargs)

theorem follow_walked (b : Bridge) (action action' : HostAction) (hb : W.inner b)
    (hmatches : HostAction.Matches W.may W.sent W.gets action action') :
    Abreast (Bridge.follow host (fuel + 1) b action) (Bridge.follow host' (fuel + 1) b action') fun x =>
      W.asks (Account.follow host (fuel + 1) b action) b x.2 ∧ ∀ v, x.1 = .ok v → W.sent v := by
  have hrefl := W.asks_refl (W.outer_inner hb)
  cases hmatches with
  | done v hv => exact abreast_some ⟨hrefl, fun w hw => Except.ok.inj hw ▸ hv⟩
  | fail e => exact abreast_some ⟨hrefl, fun w hw => by cases hw⟩
  | panic message => exact abreast_some ⟨hrefl, fun w hw => by cases hw⟩
  | ask r next next' hr hn =>
    obtain ⟨hsame, hreplied⟩ := ih.reply b r hb hr
    simp only [Bridge.follow, Account.follow, hsame]
    cases hreply : Bridge.reply host fuel b r with
    | none => exact abreast_none
    | some x =>
      obtain ⟨result, b₁⟩ := x
      obtain ⟨hdone, hresult⟩ := hreplied _ hreply
      have hnext := hn result (W.gets_reply hb hr hresult hreply)
      exact abreast_imp (ih.follow b₁ _ _ (W.inner_kept hdone hb) hnext) fun x hx =>
        ⟨W.asks_trans hb hdone hx.1, hx.2⟩

theorem reply_walked (b : Bridge) (r : Request) (hb : W.inner b) (hr : W.may r) :
    Abreast (Bridge.reply host (fuel + 1) b r) (Bridge.reply host' (fuel + 1) b r) fun x =>
      W.asks (Account.reply host (fuel + 1) b r) b x.2 ∧ W.result x.1 := by
  have houter := W.outer_inner hb
  have hsent := W.sent_asked hr
  have hunit : ∀ r : Except ScriptError Unit, W.result (unitValue r) := by
    intro r
    cases r with
    | error e => exact W.result_error e
    | ok u => exact W.result_hostless .nil
  cases r with
  | execute source => exact abreast_imp (ih.executeNamed b source _ houter) fun x hx => ⟨hx.asks, hx.result⟩
  | callGlobal name args =>
    exact abreast_imp (ih.callGlobal b name args houter hsent) fun x hx => ⟨hx.asks, hx.result⟩
  | invoke handle args =>
    simp only [Bridge.reply, Account.reply]
    split
    · exact abreast_imp (ih.invokeLive b handle args houter hsent) fun x hx => ⟨hx.asks, hx.result⟩
    · exact abreast_some ⟨W.asks_refl houter, W.result_error _⟩
  | getGlobal name => exact abreast_imp (ih.getGlobal b name hb) fun x hx => ⟨hx.asks, hx.result⟩
  | setGlobal name v =>
    exact abreast_map (ih.setGlobal b name v hb (hsent v (List.mem_singleton_self v))) _ fun x hx =>
      ⟨hx, hunit x.1⟩
  | pinned => exact abreast_some ⟨W.asks_refl houter, W.result_hostless (Value.ofInt_only _)⟩
  | release => exact abreast_some ⟨W.asks_release hr hb, W.result_hostless (Value.ofInt_only _)⟩
  | close => exact abreast_some ⟨W.asks_close hr hb, hunit _⟩
  | reset => exact abreast_some ⟨W.asks_reset hr hb, hunit _⟩
  | isLive handle => exact abreast_some ⟨W.asks_refl houter, W.result_hostless (.bool _)⟩

theorem explain_walked (depth : Nat) (b : Bridge) (id : SessionId) (e : Thrown) (h : Heap)
    (hb : W.within id b) (hh : W.heap h) :
    Abreast (Bridge.explain host (fuel + 1) depth b id e h) (Bridge.explain host' (fuel + 1) depth b id e h)
      fun x => W.turns id (Account.explain host (fuel + 1) depth b id e h) b x.2 := by
  simp only [Bridge.explain, Account.explain]
  cases plainError? e with
  | some error => exact abreast_some (W.turns_put hb hh)
  | none =>
    cases depth with
    | zero => exact abreast_some (W.turns_put hb hh)
    | succ depth =>
      obtain ⟨hsame, hdriven⟩ := ih.drive b id (.describing e.datum h) hb (W.tends.describing _ hh)
      simp only [hsame]
      cases hdrive : Bridge.drive host fuel b id (.describing e.datum h) with
      | none => exact abreast_none
      | some x =>
        obtain ⟨r, h₁, b₁⟩ := x
        obtain ⟨hh₁, hdone⟩ := hdriven _ hdrive
        have hb₁ := W.within_turns hb hdone
        cases r with
        | ok values => exact abreast_some (W.turns_trans hb hdone (W.turns_put hb₁ hh₁))
        | error e₁ =>
          exact abreast_imp (ih.explain depth b₁ id e₁ h₁ hb₁ hh₁) fun x => W.turns_trans hb hdone

theorem run_walked (b : Bridge) (id : SessionId) (machine : Heap → Machine) (hb : W.within id b)
    (hm : ∀ h, W.heap h → W.machine (machine h)) :
    Abreast (Bridge.run host (fuel + 1) b id machine) (Bridge.run host' (fuel + 1) b id machine) fun x =>
      W.turns id (Account.run host (fuel + 1) b id machine) (b.enterRun id) x.2 := by
  have hentered := W.within_entered hb
  have htaken := W.turns_take hentered
  obtain ⟨hsame, hdriven⟩ := ih.drive _ id _ (W.within_turns hentered htaken)
    (hm _ (W.heap_taken id (W.inner_within hentered)))
  simp only [Bridge.run, Account.run, hsame]
  cases hdrive : Bridge.drive host fuel ((b.enterRun id).takeHeap id).2 id
      (machine ((b.enterRun id).takeHeap id).1) with
  | none => exact abreast_none
  | some x =>
    obtain ⟨r, h₁, b₁⟩ := x
    obtain ⟨hh₁, hturned⟩ := hdriven _ hdrive
    have hdone := W.turns_after hentered htaken hturned
    have hb₁ := W.within_turns hentered hdone
    cases r with
    | ok values => exact abreast_some (W.turns_trans hentered hdone (W.turns_put hb₁ hh₁))
    | error e₁ =>
      exact abreast_imp (ih.explain describeLimit b₁ id e₁ h₁ hb₁ hh₁) fun x => W.turns_trans hentered hdone

theorem runOutward_walked (b : Bridge) (id : SessionId) (machine : Heap → Machine) (hb : W.within id b)
    (hm : ∀ h, W.heap h → W.machine (machine h)) :
    Abreast (Bridge.runOutward host (fuel + 1) b id machine) (Bridge.runOutward host' (fuel + 1) b id machine)
      fun x => W.brings id (Account.runOutward host (fuel + 1) b id machine) b x.2 x.1 ∧ W.result x.1 := by
  have hentered := W.within_entered hb
  obtain ⟨hsame, hran⟩ := ih.run b id machine hb hm
  simp only [Bridge.runOutward, Account.runOutward, hsame]
  cases hrun : Bridge.run host fuel b id machine with
  | none => exact abreast_none
  | some x =>
    obtain ⟨r, b₁⟩ := x
    have hdone := hran _ hrun
    have hb₁ := W.within_turns hentered hdone
    cases r with
    | error e =>
      have herror := W.brings_before hentered hdone (W.brings_error e hb₁)
      exact abreast_some ⟨W.brings_left hb herror, W.result_error e⟩
    | ok d =>
      have hout := W.brings_before hentered hdone (W.brings_out d hb₁)
      exact abreast_some ⟨W.brings_left hb hout, W.result_out id d (W.inner_within hb₁)⟩

theorem executeNamed_walked (b : Bridge) (source chunk : String) (hb : W.outer b) :
    Abreast (Bridge.executeNamed host (fuel + 1) b source chunk)
      (Bridge.executeNamed host' (fuel + 1) b source chunk)
      (W.Queried (Account.executeNamed host (fuel + 1) b source chunk) b) := by
  refine W.abreast_guarded hb fun b s hb hs => ?_
  have hwithin := W.within_open hb hs
  cases hload : s.heap.load source.toUTF8 chunk with
  | error e => exact abreast_some ⟨W.brings_error e hwithin, W.result_error e⟩
  | ok loaded =>
    obtain ⟨f, h⟩ := loaded
    have hput := W.turns_put hwithin (W.heap_load (W.heap_open hb hs) hload)
    exact abreast_imp (ih.runOutward _ s.id (.start f []) (W.within_turns hwithin hput) fun h hh =>
      W.tends.start f [] hh) fun x hx => ⟨W.brings_after hwithin hput hx.1, hx.2⟩

theorem callWith_walked (b : Bridge) (id : SessionId) (f : Datum) (args : List Value)
    (hb : W.within id b) (hargs : ∀ v ∈ args, W.sent v) :
    Abreast (Bridge.callWith host (fuel + 1) b id f args) (Bridge.callWith host' (fuel + 1) b id f args)
      fun x => W.brings id (Account.callWith host (fuel + 1) b id f args) b x.2 x.1 ∧ W.result x.1 := by
  have hin := W.turns_inAll hb hargs
  simp only [Bridge.callWith, Account.callWith]
  rcases hds : b.inwardAll id args with ⟨e | ds, b₁⟩
  · rw [hds] at hin
    exact abreast_some ⟨W.brings_before hb hin (W.brings_error e (W.within_turns hb hin)), W.result_error e⟩
  · rw [hds] at hin
    exact abreast_imp (ih.runOutward b₁ id (.start f ds) (W.within_turns hb hin) fun h hh =>
      W.tends.start f ds hh) fun x hx => ⟨W.brings_after hb hin hx.1, hx.2⟩

theorem callGlobal_walked (b : Bridge) (name : String) (args : List Value) (hb : W.outer b)
    (hargs : ∀ v ∈ args, W.sent v) :
    Abreast (Bridge.callGlobal host (fuel + 1) b name args) (Bridge.callGlobal host' (fuel + 1) b name args)
      (W.Queried (Account.callGlobal host (fuel + 1) b name args) b) := by
  refine W.abreast_guarded hb fun b s hb hs => ?_
  have hwithin := W.within_open hb hs
  have hentered := W.within_entered hwithin
  obtain ⟨hsame, hread⟩ := ih.run b s.id (.reading name) hwithin fun h hh => W.tends.reading name hh
  simp only [hsame]
  cases hrun : Bridge.run host fuel b s.id (.reading name) with
  | none => exact abreast_none
  | some x =>
    obtain ⟨r, b₁⟩ := x
    have hdone := hread _ hrun
    have hb₁ := W.within_turns hentered hdone
    have hfails : ∀ e, W.brings s.id (Account.run host fuel b s.id (.reading name) ++ []) b
        (b₁.leaveRun s.id) (.error e) := fun e =>
      W.brings_left hwithin (W.brings_after hentered hdone (W.brings_error e hb₁))
    cases r with
    | error e => exact abreast_some ⟨hfails e, W.result_error e⟩
    | ok f =>
      cases f with
      | function address =>
        exact abreast_map (ih.callWith b₁ s.id (.function address) args hb₁ hargs) _ fun x hx =>
          ⟨W.brings_left hwithin (W.brings_after hentered hdone hx.1), hx.2⟩
      | _ => exact abreast_some ⟨hfails _, W.result_error _⟩

theorem invokeLive_walked (b : Bridge) (handle : Handle) (args : List Value) (hb : W.outer b)
    (hargs : ∀ v ∈ args, W.sent v) :
    Abreast (Bridge.invokeLive host (fuel + 1) b handle args) (Bridge.invokeLive host' (fuel + 1) b handle args)
      (W.Queried (Account.invokeLive host (fuel + 1) b handle args) b) := by
  refine W.abreast_guarded hb fun b s hb hs => ?_
  have hwithin := W.within_open hb hs
  cases Crossing.resolve s.id s.pins handle with
  | error e => exact abreast_some ⟨W.brings_error e hwithin, W.result_error e⟩
  | ok f => exact ih.callWith b s.id f args hwithin hargs

theorem getGlobal_walked (b : Bridge) (name : String) (hb : W.inner b) :
    Abreast (Bridge.getGlobal host (fuel + 1) b name) (Bridge.getGlobal host' (fuel + 1) b name)
      (W.Queried (Account.getGlobal host (fuel + 1) b name) b) := by
  simp only [Bridge.getGlobal, Account.getGlobal, withSession]
  cases hs : b.session with
  | none => exact abreast_some (W.queried_error (W.outer_inner hb) .closed)
  | some s =>
    exact abreast_imp (ih.runOutward b s.id (.reading name) (W.within_open hb hs) fun h hh =>
      W.tends.reading name hh) fun x hx => W.queried_open (W.outer_inner hb) hs hx.1 hx.2

theorem setGlobal_walked (b : Bridge) (name : String) (v : Value) (hb : W.inner b) (hv : W.sent v) :
    Abreast (Bridge.setGlobal host (fuel + 1) b name v) (Bridge.setGlobal host' (fuel + 1) b name v)
      fun x => W.asks (Account.setGlobal host (fuel + 1) b name v) b x.2 := by
  simp only [Bridge.setGlobal, Account.setGlobal, withSession]
  cases hs : b.session with
  | none => exact abreast_some (W.asks_refl (W.outer_inner hb))
  | some s =>
    have hwithin := W.within_open hb hs
    have hin := W.turns_in hwithin hv
    simp only
    rcases hd : b.inward s.id v with ⟨e | d, b₁⟩
    · rw [hd] at hin
      exact abreast_some (W.asks_turns hwithin hin)
    · rw [hd] at hin
      have hb₁ := W.within_turns hwithin hin
      refine abreast_map (ih.run b₁ s.id (.writing name d) hb₁ fun h hh => W.tends.writing name d hh) _
        fun x hx => ?_
      -- what the assignment answers is dropped, so any error stands for it
      have hdone := W.brings_before (W.within_entered hb₁) hx
        (W.brings_error .closed (W.within_turns (W.within_entered hb₁) hx))
      exact W.asks_brings (W.outer_inner hb) (W.brings_after hwithin hin (W.brings_left hb₁ hdone))

end

/-- The fuel bounds the depth of all these calls, so one induction on it serves all of them. -/
theorem walked {host host' : Host} (W : Walk host) (hhost : ∀ name args, (∀ v ∈ args, W.received v) →
    HostAction.Matches W.may W.sent W.gets (host name args) (host' name args)) (fuel : Nat) :
    Walked W host' fuel := by
  induction fuel with
  | zero => constructor <;> intros <;> exact abreast_none
  | succ fuel ih =>
    exact {
      drive := drive_walked ih
      callHost := callHost_walked ih
      serve := serve_walked ih hhost
      follow := follow_walked ih
      reply := reply_walked ih
      explain := explain_walked ih
      run := run_walked ih
      runOutward := runOutward_walked ih
      executeNamed := executeNamed_walked ih
      callWith := callWith_walked ih
      callGlobal := callGlobal_walked ih
      invokeLive := invokeLive_walked ih
      getGlobal := getGlobal_walked ih
      setGlobal := setGlobal_walked ih }

/-- A query that does not mark the bridge may only come where it is marked, if that matters. -/
theorem query_walked {host host' : Host} {W : Walk host} {fuel : Nat} (hall : Walked W host' fuel)
    (elsewhere : Handle → Bool) (b : Bridge) (q : Query) (hb : W.outer b)
    (hinner : q.guarded = false → W.inner b) (hsent : ∀ v ∈ q.values, W.sent v) :
    Abreast (q.run host fuel elsewhere b) (q.run host' fuel elsewhere b)
      (W.Queried (Account.query host fuel elsewhere b q) b) := by
  cases q with
  | execute source chunk => exact hall.executeNamed b source chunk hb
  | callGlobal name args => exact hall.callGlobal b name args hb hsent
  | invoke handle args =>
    simp only [Query.run, Account.query, Account.invoke, invoke]
    split
    · exact hall.invokeLive b handle args hb hsent
    · exact abreast_some (W.queried_error hb .closed)
  | getGlobal name => exact hall.getGlobal b name (hinner rfl)

end Walk

end Bridge

end ScriptHost
