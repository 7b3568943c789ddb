import ScriptHost.Bridge.Install
import ScriptHost.Proofs.Bridge.Walk

/-!
# What every run respects

Running a script calls the host, and the host may run scripts again, so the functions of a bridge are all
recursive in one another.  A relation between bridges that their few primitive changes respect, and that
closes up again when a call, a run or a host function ends, is respected by all of them.  Of the changes
that only the host can ask for, those have to respect it that it does ask for.
-/

set_option autoImplicit false

namespace ScriptHost.HostAction

inductive Asks (may : Request → Prop) : HostAction → Prop
  | done (v : Value) : Asks may (.done v)
  | fail (e : ScriptError) : Asks may (.fail e)
  | panic (message : Option String) : Asks may (.panic message)
  | ask (r : Request) (next : Except ScriptError Value → HostAction) (hr : may r)
      (hn : ∀ result, Asks may (next result)) : Asks may (.ask r next)

theorem asks_any (action : HostAction) : Asks (fun _ => True) action := by
  induction action with
  | done v => exact .done v
  | fail e => exact .fail e
  | panic message => exact .panic message
  | ask r next ih => exact .ask r next trivial ih

theorem Asks.matches {may : Request → Prop} {gets : Request → Except ScriptError Value → Prop}
    {action : HostAction} (h : Asks may action) : Matches may (fun _ => True) gets action action := by
  induction h with
  | done v => exact .done v trivial
  | fail e => exact .fail e
  | panic message => exact .panic message
  | ask r next hr _ ih => exact .ask r next next hr fun x _ => ih x

end ScriptHost.HostAction

namespace ScriptHost.Bridge
open Lua

/-- A relation that every change of a bridge by a script respects.  The last three clauses are about
what is undone at the end: the mark of a guarded call, the count of runs, and what was pinned for the
arguments of a host function. -/
structure Calm (R : Bridge → Bridge → Prop) : Prop where
  refl : ∀ b, R b b
  trans : ∀ {a b c}, R a b → R b c → R a c
  heap : ∀ b id h, R b (b.putHeap id h)
  outward : ∀ b id s d, b.find? id = some s → R b (b.update id fun _ => (s.outward d).2)
  inward : ∀ b id s h, b.find? id = some s → R b (b.update id fun _ => { s with heap := h })
  standard : ∀ b id f args, R b (b.standard id f args).2
  guarded : ∀ b b', b.busy = false → R { b with busy := true } b' → R b b'.leave
  runs : ∀ b b' id, R (b.enterRun id) b' → R b (b'.leaveRun id)
  unpin : ∀ b b', R b b' → R b (b'.unpinSince b)

/-- One that also everything respects which the host may do to the session as a whole. -/
structure Steady (R : Bridge → Bridge → Prop) : Prop extends Calm R where
  release : ∀ b, R b b.release.2
  close : ∀ b, R b b.close.2
  reset : ∀ b, R b b.reset.2
  installed : ∀ b id, R b (b.update id fun s => { s with installed := true })

structure Permits (may : Request → Prop) (R : Bridge → Bridge → Prop) : Prop where
  release : may .release → ∀ b, R b b.release.2
  close : may .close → ∀ b, R b b.close.2
  reset : may .reset → ∀ b, R b b.reset.2

theorem calm_any : Calm fun _ _ => True := by
  constructor <;> simp

def Leads {α : Type} (R : Bridge → Bridge → Prop) (b : Bridge) (a : Answer α) : Prop :=
  ∀ r b', a = some (r, b') → R b b'

section
variable {α β : Type} {R : Bridge → Bridge → Prop}

theorem leads_none (b : Bridge) : Leads R b (none : Answer α) := by
  intro r b' h
  simp at h

theorem leads_some {b b' : Bridge} (r : Except ScriptError α) (h : R b b') :
    Leads R b (some (r, b')) := by
  intro r' b'' h'
  simp only [Option.some.injEq, Prod.mk.injEq] at h'
  exact h'.2 ▸ h

theorem leads_trans (hR : Calm R) {b b' : Bridge} {a : Answer α} (h : R b b') (ha : Leads R b' a) :
    Leads R b a := fun r b'' h' => hR.trans h (ha r b'' h')

theorem leads_map {b c : Bridge} {a : Answer α} {f : Except ScriptError α → Except ScriptError β}
    {g : Bridge → Bridge} (ha : Leads R b a) (hg : ∀ b', R b b' → R c (g b')) :
    Leads R c (a.map fun r => (f r.1, g r.2)) := by
  intro r c' h
  obtain ⟨⟨r₁, b'⟩, ha', h'⟩ := Option.map_eq_some_iff.mp h
  obtain ⟨-, rfl⟩ := Prod.mk.inj h'
  exact hg b' (ha r₁ b' ha')

theorem leads_next (hR : Calm R) {b : Bridge} {a : Answer α} {f : Bridge → α → Answer β}
    (ha : Leads R b a) (hf : ∀ b' v, Leads R b' (f b' v)) : Leads R b (a.next f) := by
  rcases a with _ | ⟨e | v, b'⟩
  · exact leads_none b
  · exact leads_some _ (ha _ b' rfl)
  · exact leads_trans hR (ha _ b' rfl) (hf b' v)

theorem next_some {b' : Bridge} {a : Answer α} {f : Bridge → α → Answer β} {r : Except ScriptError β}
    (h : a.next f = some (r, b')) : (∃ e, a = some (.error e, b') ∧ r = .error e) ∨
      ∃ v b₁, a = some (.ok v, b₁) ∧ f b₁ v = some (r, b') := by
  rcases a with _ | ⟨e | v, b₁⟩
  · simp [Answer.next] at h
  · obtain ⟨rfl, rfl⟩ : Except.error e = r ∧ b₁ = b' := by simpa [Answer.next] using h
    exact .inl ⟨e, rfl, rfl⟩
  · exact .inr ⟨v, b₁, rfl, h⟩

theorem leads_session (hR : Calm R) (b : Bridge) (f : Session → Answer α)
    (hf : ∀ s, b.session = some s → Leads R b (f s)) : Leads R b (b.withSession f) := by
  unfold withSession
  split
  · exact leads_some _ (hR.refl b)
  · next s hs => exact hf s hs

end

section
variable {R : Bridge → Bridge → Prop} (hR : Calm R)
include hR

theorem outward_leads (b : Bridge) (id : SessionId) (d : Datum) : R b (b.outward id d).2 := by
  unfold Bridge.outward
  split
  · exact hR.refl b
  · next s hs => exact hR.outward b id s d hs

theorem outwardAll_leads (b : Bridge) (id : SessionId) (ds : List Datum) :
    R b (b.outwardAll id ds).2 := by
  induction ds generalizing b with
  | nil => exact hR.refl b
  | cons d rest ih =>
    unfold outwardAll
    split
    · exact hR.refl b
    · next s hs =>
      have hd := hR.outward b id s d hs
      split
      · next e s' he =>
        rw [he] at hd
        exact hd
      · next v s' hv =>
        rw [hv] at hd
        have hrest := ih (b.update id fun _ => s')
        split
        · next e b' he =>
          rw [he] at hrest
          exact hR.trans hd hrest
        · next vs b' hvs =>
          rw [hvs] at hrest
          exact hR.trans hd hrest

omit hR in
theorem inward_session {s s' : Session} {v : Value} {d : Datum} (h : s.inward v = .ok (d, s')) :
    ∃ heap, s' = { s with heap } := by
  unfold Session.inward at h
  cases hc : Crossing.inward s.id s.pins v s.heap with
  | error e => simp [hc, Except.map] at h
  | ok r =>
    rw [hc] at h
    obtain ⟨-, rfl⟩ := Prod.mk.inj (Except.ok.inj h)
    exact ⟨r.2, rfl⟩

omit hR in
theorem inwardAll_session {s s' : Session} {vs : List Value} {ds : List Datum}
    (h : s.inwardAll vs = .ok (ds, s')) : ∃ heap, s' = { s with heap } := by
  unfold Session.inwardAll at h
  cases hc : Crossing.inwardAll s.id s.pins vs s.heap with
  | error e => simp [hc, Except.map] at h
  | ok r =>
    rw [hc] at h
    obtain ⟨-, rfl⟩ := Prod.mk.inj (Except.ok.inj h)
    exact ⟨r.2, rfl⟩

omit hR in
/-- A value that goes in changes the heap of its session, if anything. -/
theorem inward_cases (b : Bridge) (id : SessionId) (v : Value) : (b.inward id v).2 = b ∨
    ∃ s h, b.find? id = some s ∧ (b.inward id v).2 = b.update id fun _ => { s with heap := h } := by
  unfold Bridge.inward
  split
  · exact .inl rfl
  · next s hs =>
    split
    · exact .inl rfl
    · next d s' hv =>
      obtain ⟨h, rfl⟩ := inward_session hv
      exact .inr ⟨s, h, hs, rfl⟩

omit hR in
theorem inwardAll_cases (b : Bridge) (id : SessionId) (vs : List Value) : (b.inwardAll id vs).2 = b ∨
    ∃ s h, b.find? id = some s ∧ (b.inwardAll id vs).2 = b.update id fun _ => { s with heap := h } := by
  unfold Bridge.inwardAll
  split
  · exact .inl rfl
  · next s hs =>
    split
    · exact .inl rfl
    · next ds s' hvs =>
      obtain ⟨h, rfl⟩ := inwardAll_session hvs
      exact .inr ⟨s, h, hs, rfl⟩

omit hR in
theorem takeHeap_cases (b : Bridge) (id : SessionId) :
    (b.takeHeap id).2 = b ∨ (b.takeHeap id).2 = b.putHeap id default := by
  unfold takeHeap
  split
  · exact .inr rfl
  · exact .inl rfl

theorem inward_leads (b : Bridge) (id : SessionId) (v : Value) : R b (b.inward id v).2 := by
  obtain h | ⟨s, heap, hs, h⟩ := inward_cases b id v <;> rw [h]
  · exact hR.refl b
  · exact hR.inward b id s heap hs

theorem inwardAll_leads (b : Bridge) (id : SessionId) (vs : List Value) :
    R b (b.inwardAll id vs).2 := by
  obtain h | ⟨s, heap, hs, h⟩ := inwardAll_cases b id vs <;> rw [h]
  · exact hR.refl b
  · exact hR.inward b id s heap hs

theorem takeHeap_leads (b : Bridge) (id : SessionId) : R b (b.takeHeap id).2 := by
  obtain h | h := takeHeap_cases b id <;> rw [h]
  · exact hR.refl b
  · exact hR.heap b id default

end

structure Runs (may : Request → Prop) (R : Bridge → Bridge → Prop) (host : Host) (fuel : Nat) :
    Prop where
  drive : ∀ b id m r h b', drive host fuel b id m = some (r, h, b') → R b b'
  follow : ∀ b action, HostAction.Asks may action → Leads R b (follow host fuel b action)
  -- a run stays entered until its caller leaves it
  run : ∀ b id machine, Leads R (b.enterRun id) (run host fuel b id machine)
  query : ∀ elsewhere b q, Leads R b (Query.run host fuel elsewhere b q)
  setGlobal : ∀ b name v, Leads R b (setGlobal host fuel b name v)

/-- Whatever a standard function does, the functions that crossed for its call are unpinned in the end. -/
theorem callStandard_unpins {R : Bridge → Bridge → Prop} (hR : Calm R) (b : Bridge) (id : SessionId)
    (f : StandardFn) (args : List Datum) :
    ∃ c, (b.callStandard id f args).2 = c.unpinSince b ∧ R b c := by
  have hargs := outwardAll_leads hR b id args
  unfold callStandard
  split
  · next e b₁ he =>
    rw [he] at hargs
    exact ⟨b₁, rfl, hargs⟩
  · next vs b₁ hvs =>
    rw [hvs] at hargs
    have hserved := hR.trans hargs (hR.standard b₁ id f vs)
    split
    · next e b₂ he =>
      rw [he] at hserved
      exact ⟨b₂, rfl, hserved⟩
    · next v b₂ hv =>
      rw [hv] at hserved
      exact ⟨_, rfl, hR.trans hserved (inward_leads hR b₂ id v)⟩

theorem callStandard_leads {R : Bridge → Bridge → Prop} (hR : Calm R) (b : Bridge) (id : SessionId)
    (f : StandardFn) (args : List Datum) : R b (b.callStandard id f args).2 := by
  obtain ⟨c, hc, hlead⟩ := callStandard_unpins hR b id f args
  exact hc ▸ hR.unpin b c hlead

def calmWalk {may : Request → Prop} {R : Bridge → Bridge → Prop} (hR : Calm R) (hmay : Permits may R)
    (host : Host) : Walk host where
  may := may
  turns _ _ b b' := R b b'
  asks _ b b' := R b b'
  brings _ _ b b' _ := R b b'
  turns_refl _ := hR.refl _
  turns_trans _ h h' := hR.trans h h'
  turns_put _ _ := hR.heap _ _ _
  turns_take _ := takeHeap_leads hR _ _
  turns_in _ _ := inward_leads hR _ _ _
  turns_inAll _ _ := inwardAll_leads hR _ _ _
  turns_standard args _ _ := callStandard_leads hR _ _ _ args
  turns_custom _ _ _ _ h := hR.unpin _ _ h
  asks_refl _ := hR.refl _
  asks_trans _ h h' := hR.trans h h'
  asks_turns _ h := h
  asks_out args _ := outwardAll_leads hR _ _ args
  asks_release h _ := hmay.release h _
  asks_close h _ := hmay.close h _
  asks_reset h _ := hmay.reset h _
  asks_brings _ h := h
  brings_error _ _ := hR.refl _
  brings_out d _ := outward_leads hR _ _ d
  brings_after _ h h' := hR.trans h h'
  brings_left _ h := hR.runs _ _ _ h
  brings_marked _ hfree _ h := hR.guarded _ _ hfree h

theorem asking_lead {may : Request → Prop} {R : Bridge → Bridge → Prop} (hR : Calm R)
    (hmay : Permits may R) (host : Host) (hhost : ∀ name args, (host name args).Asks may)
    (fuel : Nat) : Runs may R host fuel := by
  have hall : Walk.Walked (calmWalk hR hmay host) host fuel :=
    Walk.walked _ (fun name args _ => (hhost name args).matches) fuel
  exact {
    drive := fun b id m r h b' hd => ((hall.drive b id m trivial trivial).2 _ hd).2
    follow := fun b action ha r b' h => ((hall.follow b action action trivial ha.matches).2 _ h).1
    run := fun b id machine r b' h => (hall.run b id machine trivial fun _ _ => trivial).2 _ h
    query := fun elsewhere b q r b' h =>
      ((Walk.query_walked hall elsewhere b q trivial (fun _ => trivial) fun _ _ => trivial).2 _ h).asks
    setGlobal := fun b name v r b' h => (hall.setGlobal b name v trivial trivial).2 _ h }

theorem runs_lead {R : Bridge → Bridge → Prop} (hR : Steady R) (host : Host) (fuel : Nat) :
    Runs (fun _ => True) R host fuel :=
  asking_lead hR.toCalm ⟨fun _ => hR.release, fun _ => hR.close, fun _ => hR.reset⟩ host
    (fun name args => (host name args).asks_any) fuel

section
variable {R : Bridge → Bridge → Prop} (hR : Steady R) (host : Host) (fuel : Nat)
include hR

theorem registerModule_leads (b : Bridge) (name : String) (methods : List (String × HostFn)) :
    Leads R b (b.registerModule host fuel name methods) := by
  unfold registerModule
  apply leads_session hR.toCalm
  intro s _
  split
  · exact leads_some _ (hR.refl b)
  · apply leads_trans hR.toCalm (hR.heap b s.id _)
    exact leads_map ((runs_lead hR host fuel).run _ s.id _) fun b' h => hR.runs _ b' s.id h

theorem exposeAll_leads (b : Bridge) (globals : List (String × StandardGlobal)) :
    Leads R b (exposeAll host fuel b globals) := by
  induction globals generalizing b with
  | nil => exact leads_some _ (hR.refl b)
  | cons g rest ih =>
    obtain ⟨name, g⟩ := g
    refine leads_next hR.toCalm ?_ fun b' _ => ih b'
    cases g with
    | function f => exact (runs_lead hR host fuel).setGlobal b name (.function (.standard f))
    | table methods => exact registerModule_leads hR host fuel b name _

theorem install_leads (b : Bridge) : Leads R b (b.install host fuel) := by
  unfold install
  apply leads_session hR.toCalm
  intro s _
  split
  · exact leads_some _ (hR.refl b)
  · exact leads_next hR.toCalm (exposeAll_leads hR host fuel b _) fun b' _ => leads_some _ (hR.installed b' s.id)

end

end ScriptHost.Bridge
