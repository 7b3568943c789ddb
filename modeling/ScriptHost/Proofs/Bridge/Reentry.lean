import ScriptHost.Proofs.Bridge.Operations

/-!
# Calls within calls

While a guarded call is under way, the host functions that it serves may not start another one, and may
not close or reset the bridge: they get an error, and nothing changes.  So what they would do with any
other answer does not matter.  When the outermost call ends, however it ends, the next one may start.
-/

set_option autoImplicit false

namespace ScriptHost
open Bridge

def Request.refusal (live : Handle → Bool) : Request → Option ScriptError
  -- requests that are not listed are served
  | .execute _ => some reentrant
  | .callGlobal _ _ => some reentrant
  | .invoke handle _ => some (if live handle then reentrant else .closed)
  | .close => some closeWhileRunning
  | .reset => some closeWhileRunning
  | _ => none

/-- Host functions that differ at most in what they do when they are not refused what has to be
refused. -/
inductive HostAction.Agree : HostAction → HostAction → Prop
  | done (v : Value) : Agree (.done v) (.done v)
  | fail (e : ScriptError) : Agree (.fail e) (.fail e)
  | panic (message : Option String) : Agree (.panic message) (.panic message)
  | ask (r : Request) (next next' : Except ScriptError Value → HostAction)
      (h : ∀ live x, (∀ e, r.refusal live = some e → x = .error e) → Agree (next x) (next' x)) :
      Agree (.ask r next) (.ask r next')

namespace Bridge
open Lua

def Query.refusal (live : Handle → Bool) : Query → Option ScriptError
  | .execute _ _ => some reentrant
  | .callGlobal _ _ => some reentrant
  | .invoke handle _ => some (if live handle then reentrant else .closed)
  | .getGlobal _ => none

def liveWith (b : Bridge) (elsewhere : Handle → Bool) (handle : Handle) : Bool :=
  b.isLive handle || elsewhere handle

section
variable {b : Bridge} (hb : b.busy = true)
include hb

theorem query_refused (host : Host) (fuel : Nat) (elsewhere : Handle → Bool) (q : Query)
    (e : ScriptError) (he : q.refusal (b.liveWith elsewhere) = some e) :
    q.run host (fuel + 1) elsewhere b = some (.error e, b) := by
  cases q with
  | execute source chunk =>
    obtain rfl := Option.some.inj he
    exact guarded_busy hb _
  | callGlobal name args =>
    obtain rfl := Option.some.inj he
    exact guarded_busy hb _
  | invoke handle args =>
    obtain rfl := Option.some.inj he
    by_cases hlive : (b.isLive handle || elsewhere handle) = true
    · simp only [Query.run, invoke, liveWith, hlive, if_true]
      exact guarded_busy hb _
    · simp only [Query.run, invoke, liveWith, hlive]
      rfl
  | getGlobal name => simp [Query.refusal] at he

theorem close_refused : b.close = (.error closeWhileRunning, b) := by
  simp only [close, hb, if_true]

theorem reset_refused : b.reset = (.error closeWhileRunning, b) := by
  simp only [reset, close_refused hb]

theorem reply_refused (host : Host) (fuel : Nat) (r : Request) (e : ScriptError)
    (he : r.refusal b.isLive = some e) :
    reply host (fuel + 2) b r = some (.error e, b) := by
  cases r with
  | execute source =>
    obtain rfl := Option.some.inj he
    exact guarded_busy hb _
  | callGlobal name args =>
    obtain rfl := Option.some.inj he
    exact guarded_busy hb _
  | invoke handle args =>
    obtain rfl := Option.some.inj he
    by_cases hlive : b.isLive handle = true
    · simp only [reply, hlive, if_true]
      exact guarded_busy hb _
    · simp only [reply, hlive]
      rfl
  | close =>
    obtain rfl := Option.some.inj he
    simp only [reply, close_refused hb, unitValue, answer]
  | reset =>
    obtain rfl := Option.some.inj he
    simp only [reply, reset_refused hb, unitValue, answer]
  | _ => simp [Request.refusal] at he

/-- Too few steps may be none at all, but never bring another answer. -/
theorem reply_answer (host : Host) (fuel : Nat) (r : Request) (x : Except ScriptError Value)
    (b' : Bridge) (h : reply host fuel b r = some (x, b')) (e : ScriptError)
    (he : r.refusal b.isLive = some e) : x = .error e := by
  obtain _ | _ | fuel := fuel
  · simp [reply] at h
  · cases r with
    | execute source => simp [reply, executeNamed] at h
    | callGlobal name args => simp [reply, callGlobal] at h
    | invoke handle args =>
      obtain rfl := Option.some.inj he
      by_cases hlive : b.isLive handle = true
      · simp [reply, hlive, invokeLive] at h
      · simp_all [reply, answer]
    | close =>
      obtain rfl := Option.some.inj he
      simp_all [reply, close_refused hb, unitValue, answer]
    | reset =>
      obtain rfl := Option.some.inj he
      simp_all [reply, reset_refused hb, unitValue, answer]
    | _ => simp [Request.refusal] at he
  · rw [reply_refused hb host fuel r e he] at h
    exact (Prod.mk.inj (Option.some.inj h)).1.symm

end

theorem close_busy (b : Bridge) : b.close.2.busy = b.busy := by
  unfold close
  split
  · rfl
  · split <;> rfl

/-- Whatever is done in a bridge, a guarded call is under way in the end just if one was before. -/
theorem busy_steady : Steady fun b b' => b'.busy = b.busy where
  refl b := rfl
  trans h h' := h'.trans h
  heap b id h := rfl
  outward b id s d hs := rfl
  inward b id s h hs := rfl
  standard b id f args := by
    rcases standard_cases b id f args with h | ⟨_, h⟩ | ⟨_, h⟩ | ⟨_, h⟩ <;> rw [h]
    rfl
  guarded b b' hfree h := hfree.symm
  runs b b' id h := h
  unpin b b' h := h
  release b := by
    unfold release
    split <;> rfl
  close := close_busy
  reset b := by
    have hclose := b.close_busy
    unfold reset
    split
    · next he => rwa [he] at hclose
    · next hok => rwa [hok] at hclose
  installed b id := rfl

def WhileBusy (R : Bridge → Bridge → Prop) (b b' : Bridge) : Prop :=
  b.busy = true → b'.busy = true ∧ R b b'

theorem calm_busy {R : Bridge → Bridge → Prop} (hR : Calm R) : Calm (WhileBusy R) where
  refl b hb := ⟨hb, hR.refl b⟩
  trans h h' hb := by
    obtain ⟨hb', hR'⟩ := h hb
    obtain ⟨hb'', hR''⟩ := h' hb'
    exact ⟨hb'', hR.trans hR' hR''⟩
  heap b id h hb := ⟨hb, hR.heap b id h⟩
  outward b id s d hs hb := ⟨hb, hR.outward b id s d hs⟩
  inward b id s h hs hb := ⟨hb, hR.inward b id s h hs⟩
  standard b id f args hb := ⟨(busy_steady.standard b id f args).trans hb, hR.standard b id f args⟩
  guarded b b' hfree _ hb := by simp [hfree] at hb
  runs b b' id h hb := ⟨(h hb).1, hR.runs b b' id (h hb).2⟩
  unpin b b' h hb := ⟨(h hb).1, hR.unpin b b' (h hb).2⟩

theorem query_busy (host : Host) (fuel : Nat) (elsewhere : Handle → Bool) (b b' : Bridge) (q : Query)
    (r : Except ScriptError Value) (h : q.run host fuel elsewhere b = some (r, b')) :
    b'.busy = b.busy :=
  (runs_lead busy_steady host fuel).query elsewhere b q r b' h

theorem agree_matches {action action' : HostAction} (h : action.Agree action') :
    HostAction.Matches (fun _ => True) (fun _ => True)
      (fun r x => ∃ live, ∀ e, r.refusal live = some e → x = .error e) action action' := by
  induction h with
  | done v => exact .done v trivial
  | fail e => exact .fail e
  | panic message => exact .panic message
  | ask r next next' _ ih => exact .ask r next next' trivial fun x ⟨live, hx⟩ => ih live x hx

def Marking (R : Bridge → Bridge → Prop) (b b' : Bridge) : Prop := (b.busy = true → b'.busy = true) ∧ R b b'

section
variable {R : Bridge → Bridge → Prop} (hR : Calm R) {a b c : Bridge}
include hR

theorem marking_refl (b : Bridge) : Marking R b b := ⟨fun hb => hb, hR.refl b⟩

theorem marking_trans (h : Marking R a b) (h' : Marking R b c) : Marking R a c :=
  ⟨fun hb => h'.1 (h.1 hb), hR.trans h.2 h'.2⟩

omit hR in
theorem marking_same (hbusy : b.busy = a.busy) (h : R a b) : Marking R a b := ⟨hbusy.trans, h⟩

end

def markedWalk {may : Request → Prop} {R : Bridge → Bridge → Prop} (hR : Calm R)
    (hmay : Permits may (WhileBusy R)) (host : Host) : Walk host where
  may := may
  gets r x := ∃ live, ∀ e, r.refusal live = some e → x = .error e
  inner b := b.busy = true
  within _ b := b.busy = true
  turns _ _ := Marking R
  asks _ := Marking R
  brings _ _ b b' _ := Marking R b b'
  inner_busy _ hb := hb
  inner_marked _ _ := rfl
  inner_within hb := hb
  inner_kept h := h.1
  within_open hb _ := hb
  within_kept h := h.1
  within_entered hb := hb
  gets_reply hb _ _ h := ⟨_, reply_answer hb host _ _ _ _ h⟩
  turns_refl _ := marking_refl hR _
  turns_trans _ := marking_trans hR
  turns_put _ _ := marking_same rfl (hR.heap _ _ _)
  turns_take _ := marking_same (takeHeap_leads busy_steady.toCalm _ _) (takeHeap_leads hR _ _)
  turns_in _ _ := marking_same (inward_leads busy_steady.toCalm _ _ _) (inward_leads hR _ _ _)
  turns_inAll _ _ := marking_same (inwardAll_leads busy_steady.toCalm _ _ _) (inwardAll_leads hR _ _ _)
  turns_standard args _ _ := marking_same (callStandard_leads busy_steady.toCalm _ _ _ args)
    (callStandard_leads hR _ _ _ args)
  turns_custom _ _ _ _ h := ⟨h.1, hR.unpin _ _ h.2⟩
  asks_refl _ := marking_refl hR _
  asks_trans _ := marking_trans hR
  asks_turns _ h := h
  asks_out args _ := marking_same (outwardAll_leads busy_steady.toCalm _ _ args)
    (outwardAll_leads hR _ _ args)
  asks_release h hb := marking_same (busy_steady.release _) (hmay.release h _ hb).2
  asks_close h hb := marking_same (busy_steady.close _) (hmay.close h _ hb).2
  asks_reset h hb := marking_same (busy_steady.reset _) (hmay.reset h _ hb).2
  asks_brings _ h := h
  brings_error _ _ := marking_refl hR _
  brings_out d _ := marking_same (outward_leads busy_steady.toCalm _ _ d) (outward_leads hR _ _ d)
  brings_after _ := marking_trans hR
  brings_left _ h := ⟨h.1, hR.runs _ _ _ h.2⟩
  brings_marked _ hfree _ h := ⟨fun hb => absurd hb (by simp [hfree]), hR.guarded _ _ hfree h.2⟩

theorem anything_permits : Permits (fun _ => True) (WhileBusy fun _ _ => True) where
  release _ b hb := ⟨(busy_steady.release b).trans hb, trivial⟩
  close _ b hb := ⟨(busy_steady.close b).trans hb, trivial⟩
  reset _ b hb := ⟨(busy_steady.reset b).trans hb, trivial⟩

/-- Host functions that agree on all refusals are not told apart by any guarded call. -/
theorem query_blind {host host' : Host} (hhost : ∀ name args, (host name args).Agree (host' name args))
    (fuel : Nat) (elsewhere : Handle → Bool) (b : Bridge) (q : Query) (hq : q.guarded = true) :
    q.run host fuel elsewhere b = q.run host' fuel elsewhere b := by
  have hall : Walk.Walked (markedWalk calm_any anything_permits host) host' fuel :=
    Walk.walked _ (fun name args _ => agree_matches (hhost name args)) fuel
  have hwalked := Walk.query_walked hall elsewhere b q trivial (fun hfree => by simp [hq] at hfree)
    fun _ _ => trivial
  exact hwalked.1.symm

/-- While a guarded call is under way, every other one and every attempt to close or reset the bridge is
refused, by the host and by a host function alike, and leaves the bridge as it is; whatever else a host
function does, the mark stays.  So no guarded call depends on what its host functions would do if they
were not refused.  A query leaves the mark as it was, whatever it answers, and so the next guarded call
may start after any run of the host. -/
theorem reentry_refused :
    (reentrant.kind = .runtime ∧ closeWhileRunning.kind = .runtime) ∧
    (∀ b : Bridge, b.busy = true →
      (∀ host fuel elsewhere (q : Query) e, q.refusal (b.liveWith elsewhere) = some e →
        q.run host (fuel + 1) elsewhere b = some (.error e, b)) ∧
      (∀ host fuel (r : Request) e, r.refusal b.isLive = some e →
        reply host (fuel + 2) b r = some (.error e, b)) ∧
      b.close = (.error closeWhileRunning, b) ∧ b.reset = (.error closeWhileRunning, b) ∧
      ∀ host fuel action r b', follow host fuel b action = some (r, b') → b'.busy = true) ∧
    (∀ host host' : Host, (∀ name args, (host name args).Agree (host' name args)) →
      ∀ fuel elsewhere b (q : Query), q.guarded = true →
        q.run host fuel elsewhere b = q.run host' fuel elsewhere b) ∧
    (∀ host fuel elsewhere b b' (q : Query) r, q.run host fuel elsewhere b = some (r, b') →
      b'.busy = b.busy) ∧
    ∀ id config steps replies b, perform (.start id config) steps = some (replies, b) →
      b.busy = false ∧ b.enter = .ok { b with busy := true } := by
  refine ⟨⟨rfl, rfl⟩, fun b hb => ⟨query_refused hb, reply_refused hb, close_refused hb,
    reset_refused hb, ?_⟩, fun _ _ => query_blind, query_busy, ?_⟩
  · intro host fuel action r b' h
    exact ((runs_lead busy_steady host fuel).follow b action action.asks_any r b' h).trans hb
  · intro id config steps replies b h
    have hfree := (performed_settles (start_atRest id config) steps replies h).rest.idle.free
    exact ⟨hfree, enter_free hfree⟩

def reentering (otherwise : HostAction) : Host := fun _ _ =>
  -- tries to run a script and to close the bridge, and expects to be refused both
  .ask (.execute "return 1") fun
    | .ok _ => otherwise
    | .error _ => .ask .close fun
      | .ok _ => otherwise
      | .error _ => .done .nil

theorem reentering_agree (otherwise otherwise' : HostAction) (name : String) (args : List Value) :
    (reentering otherwise name args).Agree (reentering otherwise' name args) := by
  refine .ask _ _ _ fun live x hx => ?_
  obtain rfl := hx _ rfl
  refine .ask _ _ _ fun live x hx => ?_
  obtain rfl := hx _ rfl
  exact .done .nil

def exposed : List Step := [⟨Host.none, 40, fun _ => false, .registerFunction "again" (.custom "again" 0)⟩]

theorem reentry_refused_nested :
    ∃ replies b, perform (.start 0 .standard) exposed = some (replies, b) ∧
      b.enter = .ok { b with busy := true } ∧
      ({ b with busy := true } : Bridge).close = (.error closeWhileRunning, { b with busy := true }) ∧
      ∃ v b', Query.run (reentering (.panic none)) 40 (fun _ => false) b
          (.execute "return again()" "one") = some (.ok v, b') ∧
        Query.run (reentering (.done .nil)) 40 (fun _ => false) b
          (.execute "return again()" "one") = some (.ok v, b') ∧ b'.busy = b.busy := by
  have hends : ((perform (.start 0 .standard) exposed).bind fun r =>
      (Query.run (reentering (.panic none)) 40 (fun _ => false) r.2
        (.execute "return again()" "one")).map fun r => r.1.isOk) = some true := by decide +kernel
  obtain ⟨⟨replies, b⟩, hrun, hends⟩ := Option.bind_eq_some_iff.mp hends
  obtain ⟨⟨r, b'⟩, hquery, hok⟩ := Option.map_eq_some_iff.mp hends
  obtain ⟨-, hrefused, hblind, hmark, hnext⟩ := reentry_refused
  cases r with
  | error e => simp [Except.isOk, Except.toBool] at hok
  | ok v =>
    have hsame := hblind _ _ (reentering_agree (.panic none) (.done .nil)) 40 (fun _ => false) b
      (.execute "return again()" "one") rfl
    exact ⟨replies, b, hrun, (hnext 0 .standard exposed replies b hrun).2,
      (hrefused { b with busy := true } rfl).2.2.1, v, b', hquery, hsame ▸ hquery,
      hmark _ _ _ _ _ _ _ hquery⟩

end Bridge

end ScriptHost
