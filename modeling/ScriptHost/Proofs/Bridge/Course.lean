import ScriptHost.Proofs.Bridge.Accounted
import ScriptHost.Proofs.Bridge.Operations
import ScriptHost.Proofs.Bridge.Turns

/-!
# Courses

A script changes a bridge by calling the host; whatever else happens in a run only moves data in and out,
pins and unpins functions, counts runs, or opens and closes sessions.  A `Course` is a sequence of such
steps and of the calls between them, and every way to run a script is one, with the calls of its account.
So what each call does, and what none of the other steps does, is enough to know what a run does.
-/

set_option autoImplicit false

namespace ScriptHost.Bridge
open Lua

/-- A change of a bridge in which no script calls the host. -/
inductive Aside (b : Bridge) : Bridge → Prop
  | heap (id : SessionId) (h : Heap) : Aside b (b.putHeap id h)
  | outward (id : SessionId) (s : Session) (d : Datum) (hs : b.find? id = some s) :
      Aside b (b.update id fun _ => (s.outward d).2)
  | inward (id : SessionId) (s : Session) (h : Heap) (hs : b.find? id = some s) :
      Aside b (b.update id fun _ => { s with heap := h })
  | mark (busy : Bool) : Aside b { b with busy }
  | enterRun (id : SessionId) : Aside b (b.enterRun id)
  | leaveRun (id : SessionId) : Aside b (b.leaveRun id)
  | unpin (before : Bridge) : Aside b (b.unpinSince before)
  | release : Aside b b.release.2
  | close : Aside b b.close.2
  | reset : Aside b b.reset.2
  | installed (id : SessionId) : Aside b (b.update id fun s => { s with installed := true })
  | retain (handle : Handle) : Aside b (b.retain handle)
  | drop (handle : Handle) : Aside b (b.drop handle)
  | compile (source chunk : String) : Aside b (b.compile source chunk).2

/-- A sequence of steps and calls.  While the session `home` is open, scripts call from no other. -/
inductive Course (home : SessionId) (a : Bridge) : List HostCall → Bridge → Prop
  | start : Course home a [] a
  | aside {calls : List HostCall} {b c : Bridge} (h : Course home a calls b) (hc : Aside b c) :
      Course home a calls c
  | standard {calls : List HostCall} {b : Bridge} (h : Course home a calls b) (id : SessionId)
      (f : StandardFn) (args : List Datum) (hid : ∀ s, b.session = some s → s.id = home → id = home) :
      Course home a (calls ++ [b.standardCall id f args]) (b.callStandard id f args).2
  | custom {calls : List HostCall} {b : Bridge} (h : Course home a calls b) (name : String) (serial : Nat)
      (args : List Datum) (received : Except ScriptError (List Value)) (r : Except ScriptError Datum) :
      Course home a (calls ++ [⟨.custom name serial, args, received, r⟩]) b

section
variable {home : SessionId} {a b c : Bridge} {calls more : List HostCall}

theorem Course.trans (h : Course home a calls b) (h' : Course home b more c) :
    Course home a (calls ++ more) c := by
  induction h' with
  | start => rwa [List.append_nil]
  | aside _ hc ih => exact ih.aside hc
  | standard _ id f args hid ih =>
    rw [← List.append_assoc]
    exact ih.standard id f args hid
  | custom _ name serial args received r ih =>
    rw [← List.append_assoc]
    exact ih.custom name serial args received r

theorem Course.after (h : Course home a [] b) (h' : Course home b calls c) : Course home a calls c :=
  h.trans h'

theorem Course.before (h : Course home a calls b) (h' : Course home b [] c) : Course home a calls c :=
  List.append_nil calls ▸ h.trans h'

theorem Aside.course (h : Aside b c) : Course home b [] c := Course.start.aside h

end

structure Leaving (b c : Bridge) : Prop where
  openings : b.openings ≤ c.openings
  states : ∀ s' ∈ c.sessions, s'.state = [] ∨ ∃ s ∈ b.sessions, s'.state = s.state
  current : ∀ s', c.session = some s' →
    b.openings ≤ s'.id.opening ∨ ∃ s, b.session = some s ∧ s'.id = s.id ∧ s'.state = s.state

section
variable {b c : Bridge}

theorem leaving_map (f : Session → Session) (hopenings : c.openings = b.openings)
    (hsession : c.session = b.session.map f) (hlingering : c.lingering ⊆ b.lingering.map f)
    (hstate : ∀ s ∈ b.sessions, ∃ t ∈ b.sessions, (f s).state = t.state)
    (hopen : ∀ s, b.session = some s → (f s).id = s.id ∧ (f s).state = s.state) : Leaving b c where
  openings := Nat.le_of_eq hopenings.symm
  states s' hs' := by
    have hmem : s' ∈ b.sessions.map f := by
      rw [sessions, hsession] at hs'
      rw [sessions, List.map_append]
      rcases List.mem_append.mp hs' with h | h
      · refine List.mem_append_left _ ?_
        cases hs : b.session <;> simp_all
      · exact List.mem_append_right _ (hlingering h)
    obtain ⟨s, hs, rfl⟩ := List.mem_map.mp hmem
    exact .inr (hstate s hs)
  current s' hs' := by
    rw [hsession] at hs'
    obtain ⟨s, hs, rfl⟩ := Option.map_eq_some_iff.mp hs'
    exact .inr ⟨s, hs, hopen s hs⟩

theorem leaving_each (f : Session → Session) (hopenings : c.openings = b.openings)
    (hsession : c.session = b.session.map f) (hlingering : c.lingering ⊆ b.lingering.map f)
    (hf : ∀ s, (f s).id = s.id ∧ (f s).state = s.state) : Leaving b c :=
  leaving_map f hopenings hsession hlingering (fun s hs => ⟨s, hs, (hf s).2⟩) fun s _ => hf s

theorem leaving_refl (b : Bridge) : Leaving b b :=
  leaving_each (fun s => s) rfl (by simp) (by simp) fun _ => ⟨rfl, rfl⟩

theorem leaving_update (b : Bridge) (id : SessionId) (f : Session → Session)
    (hf : ∀ s, (f s).id = s.id ∧ (f s).state = s.state) : Leaving b (b.update id f) := by
  refine leaving_each (fun s => if s.id = id then f s else s) rfl rfl (List.Subset.refl _) fun s => ?_
  split
  · exact hf s
  · exact ⟨rfl, rfl⟩

/-- Putting a session in its own place that has the same name and stored values. -/
theorem leaving_found {id : SessionId} {s s' : Session} (hs : b.find? id = some s) (hid : s'.id = s.id)
    (hstate : s'.state = s.state) : Leaving b (b.update id fun _ => s') := by
  refine leaving_map (fun t => if t.id = id then s' else t) rfl rfl (List.Subset.refl _) (fun t ht => ?_)
    fun t ht => ?_
  · split
    · exact ⟨s, (mem_of_find hs).1, hstate⟩
    · exact ⟨t, ht, rfl⟩
  · split
    · next htid =>
      obtain rfl := open_found ht hs htid
      exact ⟨hid, hstate⟩
    · exact ⟨rfl, rfl⟩

theorem leaving_current {s s' : Session} (hs : b.session = some s) (hid : s'.id = s.id)
    (hstate : s'.state = s.state) : Leaving b { b with session := some s' } where
  openings := Nat.le_refl _
  states t ht := by
    rcases List.mem_append.mp ht with hopen | hlingers
    · obtain rfl : t = s' := by simpa using hopen
      exact .inr ⟨s, mem_open hs, hstate⟩
    · exact .inr ⟨t, List.mem_append_right _ hlingers, rfl⟩
  current t ht := by
    obtain rfl := Option.some.inj ht
    exact .inr ⟨s, hs, hid, hstate⟩

theorem leaving_compile (b : Bridge) (source chunk : String) : Leaving b (b.compile source chunk).2 := by
  unfold compile
  split
  · exact leaving_refl b
  · next s hs =>
    split
    · exact leaving_refl b
    · exact leaving_current hs rfl rfl

theorem leaving_release (b : Bridge) : Leaving b b.release.2 := by
  unfold Bridge.release
  split
  · exact leaving_refl b
  · next s hs => exact leaving_current hs rfl rfl

theorem leaving_close (b : Bridge) : Leaving b b.close.2 := by
  unfold close
  split
  · exact leaving_refl b
  · split
    · exact leaving_refl b
    · next s hs =>
      refine ⟨Nat.le_refl _, fun t ht => .inr ?_, fun t ht => by cases ht⟩
      have hlingers : t ∈ (if s.runs = 0 then b.lingering else s.release.2 :: b.lingering) := by
        simpa [sessions] using ht
      split at hlingers
      · exact ⟨t, List.mem_append_right _ hlingers, rfl⟩
      · rcases List.mem_cons.mp hlingers with rfl | hlingers
        · exact ⟨s, mem_open hs, rfl⟩
        · exact ⟨t, List.mem_append_right _ hlingers, rfl⟩

theorem leaving_reset (b : Bridge) : Leaving b b.reset.2 := by
  have hclose := leaving_close b
  unfold reset
  split
  · next e b₁ hc =>
    rw [hc] at hclose
    exact hclose
  · next b₁ hc =>
    rw [hc] at hclose
    obtain ⟨hopenings, hstates, -⟩ := hclose
    refine ⟨Nat.le_succ_of_le hopenings, fun t ht => ?_, fun t ht => .inl ?_⟩
    · rcases List.mem_append.mp ht with hopen | hlingers
      · obtain rfl : t = Session.start ⟨b₁.id, b₁.openings⟩ b₁.config := by simpa [reopen] using hopen
        exact .inl rfl
      · exact hstates t (List.mem_append_right _ hlingers)
    · obtain rfl := Option.some.inj ht
      exact hopenings

theorem Aside.leaving (h : Aside b c) : Leaving b c := by
  cases h with
  | heap id h => exact leaving_update b id _ fun _ => ⟨rfl, rfl⟩
  | outward id s d hs =>
    refine leaving_found hs ?_ (s.outward_same d).2
    unfold Session.outward
    split <;> rfl
  | inward id s h hs => exact leaving_found hs rfl rfl
  | mark busy => exact leaving_each (fun s => s) rfl (by simp) (by simp) fun _ => ⟨rfl, rfl⟩
  | enterRun id => exact leaving_update b id _ fun _ => ⟨rfl, rfl⟩
  | leaveRun id =>
    refine leaving_each (less id) rfl rfl (List.filter_subset_self _) fun s => ⟨less_id id s, ?_⟩
    unfold less
    split <;> rfl
  | unpin before =>
    exact leaving_each (fun s => s.dropFrom (before.nextSlot s.id)) rfl rfl (List.Subset.refl _)
      fun _ => ⟨rfl, rfl⟩
  | release => exact leaving_release b
  | close => exact leaving_close b
  | reset => exact leaving_reset b
  | installed id => exact leaving_update b id _ fun _ => ⟨rfl, rfl⟩
  | retain handle =>
    refine leaving_update b handle.session _ fun s => ⟨s.retain_id handle, ?_⟩
    unfold Session.retain
    split <;> rfl
  | drop handle =>
    refine leaving_update b handle.session _ fun s => ⟨s.drop_id handle, ?_⟩
    unfold Session.drop
    split <;> rfl
  | compile source chunk => exact leaving_compile b source chunk

def SameNames (b b' : Bridge) : Prop := b'.openings = b.openings ∧ SameSession b b'

theorem sameNames_calm : Calm SameNames where
  refl b := ⟨rfl, rfl⟩
  trans h h' := ⟨h'.1.trans h.1, sameSession_calm.trans h.2 h'.2⟩
  heap b id h := ⟨rfl, sameSession_calm.heap b id h⟩
  outward b id s d hs := ⟨rfl, sameSession_calm.outward b id s d hs⟩
  inward b id s h hs := ⟨rfl, sameSession_calm.inward b id s h hs⟩
  standard b id f args := by
    refine ⟨?_, sameSession_calm.standard b id f args⟩
    rcases standard_cases b id f args with h | ⟨_, h⟩ | ⟨_, h⟩ | ⟨d, h⟩ <;> simp [h, setState, update]
  guarded _ _ _ h := h
  runs b b' id h := ⟨h.1, sameSession_calm.runs b b' id h.2⟩
  unpin b b' h := ⟨h.1, sameSession_calm.unpin b b' h.2⟩

end

structure At (home id : SessionId) (b : Bridge) : Prop where
  opened : home.opening < b.openings
  current : ∀ s, b.session = some s → s.id = home → id = home

section
variable {home id : SessionId} {a b : Bridge} {calls : List HostCall}

/-- A session that is open in the end was open all the time. -/
theorem Course.back (h : Course home a calls b) (ha : home.opening < a.openings) :
    home.opening < b.openings ∧
      ∀ s', b.session = some s' → s'.id = home → ∃ s, a.session = some s ∧ s.id = home := by
  induction h with
  | start => exact ⟨ha, fun s hs hid => ⟨s, hs, hid⟩⟩
  | aside _ hc ih =>
    have hleaving := hc.leaving
    have hopenings := hleaving.openings
    refine ⟨by omega, fun s' hs' hid => ?_⟩
    rcases hleaving.current s' hs' with hnew | ⟨s, hs, hname, -⟩
    · rw [hid] at hnew
      omega
    · exact ih.2 s hs (hname.symm.trans hid)
  | @standard _ b _ id f args _ ih =>
    obtain ⟨hopenings, hnames⟩ := callStandard_leads sameNames_calm b id f args
    refine ⟨hopenings ▸ ih.1, fun s' hs' hid => ?_⟩
    rw [SameSession, hs'] at hnames
    obtain ⟨s, hs, hname⟩ := Option.map_eq_some_iff.mp hnames.symm
    exact ih.2 s hs (hname.trans hid)
  | custom _ _ _ _ _ _ ih => exact ih

theorem Course.at (h : Course home a calls b) (ha : At home id a) : At home id b := by
  obtain ⟨hopened, hback⟩ := h.back ha.opened
  refine ⟨hopened, fun s' hs' hid => ?_⟩
  obtain ⟨s, hs, hname⟩ := hback s' hs' hid
  exact ha.current s hs hname

theorem at_open {s : Session} (hb : home.opening < b.openings) (hs : b.session = some s) :
    At home s.id b := by
  refine ⟨hb, fun t ht hid => ?_⟩
  rw [hs] at ht
  obtain rfl := Option.some.inj ht
  exact hid

end

def Takes {α : Type} (home : SessionId) (b : Bridge) (calls : List HostCall) (a : Answer α) : Prop :=
  ∀ r b', a = some (r, b') → Course home b calls b'

section
variable {α β : Type} {home : SessionId} {b b' : Bridge} {calls more : List HostCall} {a : Answer α}

theorem takes_none : Takes home b calls (none : Answer α) := by
  intro r b' h
  cases h

theorem takes_some {r : Except ScriptError α} (h : Course home b calls b') :
    Takes home b calls (some (r, b')) := by
  intro r' b'' h'
  obtain ⟨rfl, rfl⟩ := Prod.mk.inj (Option.some.inj h')
  exact h

theorem takes_after (h : Course home b calls b') (ha : Takes home b' more a) :
    Takes home b (calls ++ more) a := fun r b'' hr => h.trans (ha r b'' hr)

theorem takes_map {f : Except ScriptError α → Except ScriptError β} {g : Bridge → Bridge}
    (ha : Takes home b calls a) (hg : ∀ b', Aside b' (g b')) :
    Takes home b calls (a.map fun r => (f r.1, g r.2)) := by
  intro r c h
  obtain ⟨⟨x, b'⟩, hx, heq⟩ := Option.map_eq_some_iff.mp h
  obtain ⟨-, rfl⟩ := Prod.mk.inj heq
  exact (ha x b' hx).aside (hg b')

theorem outward_course (b : Bridge) (id : SessionId) (d : Datum) : Course home b [] (b.outward id d).2 := by
  unfold Bridge.outward
  split
  · exact .start
  · next s hs => exact (Aside.outward id s d hs).course

theorem outwardAll_course (b : Bridge) (id : SessionId) (ds : List Datum) :
    Course home b [] (b.outwardAll id ds).2 := by
  induction ds generalizing b with
  | nil => exact .start
  | cons d rest ih =>
    unfold outwardAll
    split
    · exact .start
    · next s hs =>
      have hd : Course home b [] _ := (Aside.outward id s d hs).course
      split
      · next e s' he =>
        rw [he] at hd
        exact hd
      · next v s' hv =>
        rw [hv] at hd
        have hrest := ih (b.update id fun _ => s')
        split
        · next e b' he =>
          rw [he] at hrest
          exact hd.trans hrest
        · next vs b' hvs =>
          rw [hvs] at hrest
          exact hd.trans hrest

theorem inward_course (b : Bridge) (id : SessionId) (v : Value) : Course home b [] (b.inward id v).2 := by
  unfold Bridge.inward
  split
  · exact .start
  · next s hs =>
    split
    · exact .start
    · next d s' hv =>
      obtain ⟨h, rfl⟩ := inward_session hv
      exact (Aside.inward id s h hs).course

theorem inwardAll_course (b : Bridge) (id : SessionId) (vs : List Value) :
    Course home b [] (b.inwardAll id vs).2 := by
  unfold Bridge.inwardAll
  split
  · exact .start
  · next s hs =>
    split
    · exact .start
    · next ds s' hvs =>
      obtain ⟨h, rfl⟩ := inwardAll_session hvs
      exact (Aside.inward id s h hs).course

theorem takeHeap_course (b : Bridge) (id : SessionId) : Course home b [] (b.takeHeap id).2 := by
  unfold takeHeap
  split
  · exact (Aside.heap id default).course
  · exact .start

theorem putHeap_course (b : Bridge) (id : SessionId) (h : Heap) : Course home b [] (b.putHeap id h) :=
  (Aside.heap id h).course

end

end ScriptHost.Bridge
