import ScriptHost.Proofs.Bridge.Opening

/-!
# Pins are conserved

What a script hands to host functions is pinned for the time of the call only, and what it returns is
pinned once for each handle in the value.  So after a call the open session has the pins that it had and
one for every handle in the answer, and letting go of these brings back what was there before.
-/

set_option autoImplicit false

namespace ScriptHost.Session
open Lua

structure Same (s t : Session) : Prop where
  id : t.id = s.id
  pins : t.pins = s.pins
  releases : t.releases = s.releases

theorem same_refl (s : Session) : Same s s := ⟨rfl, rfl, rfl⟩

end ScriptHost.Session

namespace ScriptHost.Bridge
open Lua

/-- What is left of a session's pins in a later bridge, unless the session was released meanwhile: those
that it had, and one with a single holder for each of the handles. -/
structure Leaves (id : SessionId) (b b' : Bridge) (handles : List Handle) : Prop where
  named : ∀ h ∈ handles, h.session = id
  pins : ∀ s ∈ b.sessions, ∀ s' ∈ b'.sessions, s.id = id → s'.id = id → s'.releases = s.releases →
    ∃ new : List Pin, s'.pins.Perm (s.pins ++ new) ∧
      (new.map (·.slot)).Perm (handles.map (·.slot)) ∧ ∀ p ∈ new, p.holders = 1

section
variable {id : SessionId} {a b c : Bridge} {handles : List Handle}

theorem leaves_none (h : ∀ s ∈ a.sessions, ∀ s' ∈ b.sessions, s.id = id → s'.id = id →
    s'.releases = s.releases → s'.pins.Perm s.pins) : Leaves id a b [] :=
  ⟨by simp, fun s hs s' hs' hid hid' hreleases =>
    ⟨[], by simpa using h s hs s' hs' hid hid' hreleases, by simp, by simp⟩⟩

theorem leaves_refl (hb : b.Sound) (id : SessionId) : Leaves id b b [] := by
  apply leaves_none
  intro s hs s' hs' hid hid' _
  rw [sound_unique hb hs' hs (hid'.trans hid.symm)]

theorem leaves_trans (ha : a.Sound) (hab : Later a b) (hbc : Later b c) (h : Leaves id a b [])
    (h' : Leaves id b c handles) : Leaves id a c handles := by
  refine ⟨h'.named, fun s hs u hu hid huid hreleases => ?_⟩
  rcases hbc.kept u hu with ⟨t, ht, hk⟩ | ⟨hopening, -⟩
  · have htid : t.id = id := hk.id.symm.trans huid
    have hst := kept_of_old ha hab hs ht (htid.trans hid.symm)
    have h1 := hst.releases
    have h2 := hk.releases
    obtain ⟨none, hpins, hslots, -⟩ := h.pins s hs t ht hid htid (by omega)
    obtain rfl : none = [] := by simpa using hslots
    obtain ⟨new, hnew, hrest⟩ := h'.pins t ht u hu htid huid (by omega)
    rw [List.append_nil] at hpins
    exact ⟨new, hnew.trans (hpins.append_right new), hrest⟩
  · -- a session that was opened since cannot have the name of one from before
    have h1 := (ha.named s hs).2
    have h2 := hab.openings
    rw [huid, ← hid] at hopening
    omega

/-- What does not touch pins may come first. -/
theorem leaves_before (hsame : ∀ s ∈ a.sessions, ∃ t ∈ b.sessions, s.Same t)
    (h : Leaves id b c handles) : Leaves id a c handles := by
  refine ⟨h.named, fun s hs u hu hid huid hreleases => ?_⟩
  obtain ⟨t, ht, htid, hpins, htreleases⟩ := hsame s hs
  have hleft := h.pins t ht u hu (htid.trans hid) huid (hreleases.trans htreleases.symm)
  rwa [hpins] at hleft

/-- What does not touch pins may come last. -/
theorem leaves_after (hsame : ∀ u ∈ c.sessions, ∃ t ∈ b.sessions, t.Same u)
    (h : Leaves id a b handles) : Leaves id a c handles := by
  refine ⟨h.named, fun s hs u hu hid huid hreleases => ?_⟩
  obtain ⟨t, ht, htid, hpins, htreleases⟩ := hsame u hu
  have hleft := h.pins s hs t ht hid (htid.symm.trans huid) (htreleases.symm.trans hreleases)
  rwa [hpins]

end

theorem update_same (b : Bridge) (id : SessionId) (f : Session → Session)
    (hf : ∀ s ∈ b.sessions, s.id = id → s.Same (f s)) :
    (∀ s ∈ b.sessions, ∃ t ∈ (b.update id f).sessions, s.Same t) ∧
    ∀ t ∈ (b.update id f).sessions, ∃ s ∈ b.sessions, s.Same t := by
  have hchange : ∀ s ∈ b.sessions, s.Same (if s.id = id then f s else s) := by
    intro s hs
    split
    · next hid => exact hf s hs hid
    · exact s.same_refl
  rw [update_sessions]
  constructor
  · exact fun s hs => ⟨_, List.mem_map.mpr ⟨s, hs, rfl⟩, hchange s hs⟩
  · intro t ht
    obtain ⟨s, hs, rfl⟩ := List.mem_map.mp ht
    exact ⟨s, hs, hchange s hs⟩

/-- What is unpinned when a host function returns is all that was pinned since it was called. -/
theorem unpin_leaves {b b' : Bridge} (hb : b.Sound) (hb' : b'.Sound) (h : Later b b')
    (id : SessionId) : Leaves id b (b'.unpinSince b) [] := by
  apply leaves_none
  intro s hs u hu hid huid hreleases
  rw [unpinSince_sessions] at hu
  obtain ⟨t, ht, rfl⟩ := List.mem_map.mp hu
  have htid : t.id = s.id := huid.trans hid.symm
  have hk := kept_of_old hb h hs ht htid
  have hslot : b.nextSlot t.id = s.nextSlot := by rw [nextSlot, htid, find_of_mem hb hs]
  have hleft : (t.dropFrom (b.nextSlot t.id)).pins = t.pins.filter fun p => p.slot < s.nextSlot := by
    rw [hslot]
    rfl
  rw [hleft, List.perm_ext_iff_of_nodup ((hb'.pins t ht).once.of_map.filter _)
    (hb.pins s hs).once.of_map]
  intro p
  -- slots are given out once, so below the old next slot there are the old pins only
  rw [List.mem_filter, decide_eq_true_eq]
  constructor
  · rintro ⟨hp, hslot⟩
    exact (hk.pins hreleases p hslot).mp hp
  · intro hp
    have hgiven := (hb.pins s hs).given p hp
    exact ⟨(hk.pins hreleases p hgiven).mpr hp, hgiven⟩

/-- What crosses outward is pinned, each handle once. -/
theorem outward_leaves {b : Bridge} (hb : b.Sound) (id : SessionId) (d : Datum) :
    Leaves id b (b.outward id d).2 (Hub.valueHandles (b.outward id d).1) := by
  unfold Bridge.outward
  split
  · exact leaves_refl hb id
  · next s hs =>
    obtain ⟨hmem, rfl⟩ := mem_of_find hs
    have hopen : ∀ {s' : Session}, ∀ u ∈ b.sessions, ∀ t ∈ (b.update s.id fun _ => s').sessions,
        u.id = s.id → t.id = s.id → u = s ∧ t = s' := by
      intro s' u hu t ht huid htid
      refine ⟨sound_unique hb hu hmem huid, ?_⟩
      rw [update_sessions] at ht
      obtain ⟨v, hv, rfl⟩ := List.mem_map.mp ht
      by_cases hvid : v.id = s.id
      · rw [if_pos hvid]
      · rw [if_neg hvid] at htid
        exact absurd htid hvid
    rcases hv : s.outward d with ⟨r, s'⟩
    cases r with
    | error e =>
      apply leaves_none
      intro u hu t ht huid htid _
      obtain ⟨rfl, rfl⟩ := hopen u hu t ht huid htid
      obtain ⟨fs, ⟨e', he⟩ | ⟨v, hok, -⟩⟩ := u.outward_cases d
      · obtain ⟨-, rfl⟩ := Prod.mk.inj (hv.symm.trans he)
        exact .refl _
      · simp [hok] at hv
    | ok v =>
      obtain ⟨new, hpins, hslots, hone⟩ := Session.outward_new (hb.pins s hmem) hv
      refine ⟨fun handle hhandle => ((Session.outward_handles hv).2.2 handle hhandle).1, ?_⟩
      intro u hu t ht huid htid _
      obtain ⟨rfl, rfl⟩ := hopen u hu t ht huid htid
      exact ⟨new, .of_eq hpins, hslots, hone⟩

/-- A change of what pins do not depend on. -/
theorem update_leaves {b : Bridge} (id session : SessionId) {f : Session → Session}
    (hsound : (b.update session f).Sound) (hf : ∀ s ∈ b.sessions, s.id = session → s.Same (f s)) :
    Leaves id b (b.update session f) [] :=
  leaves_before (update_same b session f hf).1 (leaves_refl hsound id)

/-- A run that was entered is left again. -/
theorem leaveRun_leaves {id : SessionId} {b c : Bridge} {handles : List Handle} (session : SessionId)
    (h : Leaves id (b.enterRun session) c handles) : Leaves id b (c.leaveRun session) handles := by
  have hentered := (update_same b session (fun s => { s with runs := s.runs + 1 })
    fun _ _ _ => ⟨rfl, rfl, rfl⟩).1
  apply leaves_after _ (leaves_before hentered h)
  intro u hu
  obtain ⟨t, ht, rfl⟩ := List.mem_map.mp ((leaveRun_sublist c session).subset hu)
  exact ⟨t, ht, by simp, by simp, by simp⟩

def leavesYield : Yield where
  turns b b' := ∀ id, Leaves id b b' []
  brings id b b' r := Leaves id b b' (Hub.valueHandles r)
  refl hb := leaves_refl hb
  trans ha hab hbc h h' id := leaves_trans ha hab hbc (h id) (h' id)
  heap session h hb id :=
    update_leaves id session (later_steady.heap _ session h hb).1 fun _ _ _ => ⟨rfl, rfl, rfl⟩
  inward {b session s} h hb hs id := by
    obtain ⟨hmem, hid⟩ := mem_of_find hs
    refine update_leaves id session (later_steady.inward b session s h hs hb).1 fun t ht htid => ?_
    obtain rfl := sound_unique hb ht hmem (htid.trans hid.symm)
    exact ⟨rfl, rfl, rfl⟩
  unpin hb hc h := unpin_leaves hb hc h
  error id _ hb := leaves_refl hb id
  -- the only place where pins are made that are not undone before the end
  out id d hb := outward_leaves hb id d
  after ha hab hbc h h' := leaves_trans ha hab hbc (h _) h'
  left h := leaveRun_leaves _ h
  marked h := ⟨h.named, h.pins⟩

def Yields (b : Bridge) (a : Answer Value) : Prop :=
  b.Sound → ∀ s, b.session = some s → ∀ r b', a = some (r, b') →
    b'.Sound ∧ Leaves s.id b b' (Hub.valueHandles r)

theorem query_yields (host : Host) (fuel : Nat) (b : Bridge) (elsewhere : Handle → Bool) (q : Query) :
    Yields b (q.run host fuel elsewhere b) := by
  intro hb s hs r b' h
  have hwalked := Walk.query_walked (leavesYield.walked host fuel) elsewhere b q hb (fun _ => hb)
    fun _ _ => trivial
  have hqueried := hwalked.2 _ h
  exact ⟨hqueried.asks.1, (hqueried.brings s hs).2⟩

theorem dropAll_session (b : Bridge) (handles : List Handle) :
    (b.dropAll handles).session = b.session.map (·.dropAll handles) := by
  induction handles generalizing b with
  | nil => simp [dropAll, Session.dropAll]
  | cons handle rest ih =>
    have hdrop : (b.drop handle).session = b.session.map (·.drop handle) := by
      simp only [drop, update]
      refine Option.map_congr fun s _ => ?_
      split
      · rfl
      · next hid => exact (s.drop_foreign handle (Ne.symm hid)).symm
    have hrest := ih (b.drop handle)
    rw [hdrop, Option.map_map] at hrest
    exact hrest

theorem pinned_after {b b' : Bridge} {s : Session} {handles : List Handle} (hs : b.session = some s)
    (hb' : b'.Sound) (h : Leaves s.id b b' handles) (hsame : SameOpening b b') :
    b'.pinned = b.pinned + handles.length ∧ (b'.dropAll handles).pinned = b.pinned := by
  obtain ⟨s', hs', hopening⟩ : ∃ s', b'.session = some s' ∧ (s'.id, s'.releases) = (s.id, s.releases) := by
    have hsome : b'.session.map (fun s => (s.id, s.releases)) = some (s.id, s.releases) := by
      rw [hsame, hs, Option.map_some]
    exact Option.map_eq_some_iff.mp hsome
  obtain ⟨hid, hreleases⟩ := Prod.mk.inj hopening
  obtain ⟨new, hpins, hslots, hone⟩ :=
    h.pins s (mem_open hs) s' (mem_open hs') rfl hid hreleases
  have hnew : new.length = handles.length := by simpa using hslots.length_eq
  have hdropped := Session.dropAll_new (hb'.pins s' (mem_open hs')) s.pins new handles
    (fun handle hmem => (h.named handle hmem).trans hid.symm) hpins hslots hone
  constructor
  · have hlength := hpins.length_eq
    rw [List.length_append, hnew] at hlength
    simpa only [pinned, hs, hs'] using hlength
  · simpa only [pinned, hs, dropAll_session, hs', Option.map_some] using hdropped.length_eq

/-- After a query on an open bridge, whatever it answers, one function more is pinned for each handle in
the answer, and letting go of these leaves as many as before.  That is so however many functions went
through host functions, as long as none of these asks to close the session or to release what it has
pinned, or at least the session is still the same in the end. -/
theorem pins_conserved :
    (∀ id config steps replies b, perform (.start id config) steps = some (replies, b) → b.Sound) ∧
    ∀ (host : Host) (fuel : Nat) (elsewhere : Handle → Bool) (b b' : Bridge) (q : Query)
      (r : Except ScriptError Value), b.Sound → b.isClosed = false →
      q.run host fuel elsewhere b = some (r, b') →
      b'.Sound ∧ ((∀ name args, (host name args).Asks q.Spares) ∨ SameOpening b b' →
        b'.pinned = b.pinned + (Hub.valueHandles r).length ∧
        (b'.dropAll (Hub.valueHandles r)).pinned = b.pinned) := by
  refine ⟨fun id config steps replies b h =>
    (performed_settles (start_atRest id config) steps replies h).rest.sound, ?_⟩
  intro host fuel elsewhere b b' q r hb hopen h
  obtain ⟨s, hs⟩ : ∃ s, b.session = some s := by
    simpa [isClosed, Option.isSome_iff_exists] using hopen
  obtain ⟨hb', hleaves⟩ := query_yields host fuel b elsewhere q hb s hs r b' h
  refine ⟨hb', fun hstays => pinned_after hs hb' hleaves ?_⟩
  rcases hstays with hhost | hsame
  · exact query_sameOpening host fuel elsewhere b q hhost r b' h
  · exact hsame

def handing : Query := .execute "again(type, {type}) return {type, type}" "one"

theorem pins_conserved_handing :
    ∃ replies b r b', perform (.start 0 .standard) exposed = some (replies, b) ∧
      handing.run Host.none 60 (fun _ => false) b = some (r, b') ∧ (Hub.valueHandles r).length = 2 ∧
      b'.pinned = b.pinned + 2 ∧ (b'.dropAll (Hub.valueHandles r)).pinned = b.pinned := by
  have hends : ((perform (.start 0 .standard) exposed).bind fun r =>
      (handing.run Host.none 60 (fun _ => false) r.2).map fun answer =>
        (r.2.isClosed, (Hub.valueHandles answer.1).length)) = some (false, 2) := by decide +kernel
  obtain ⟨⟨replies, b⟩, hrun, hends⟩ := Option.bind_eq_some_iff.mp hends
  obtain ⟨⟨r, b'⟩, hquery, heq⟩ := Option.map_eq_some_iff.mp hends
  obtain ⟨hopen, hlength⟩ := Prod.mk.inj heq
  obtain ⟨hsound, hconserved⟩ := pins_conserved
  obtain ⟨-, hcount⟩ := hconserved Host.none 60 (fun _ => false) b b' handing r
    (hsound 0 .standard exposed replies b hrun) hopen hquery
  have hpinned := hcount (.inl fun _ _ => .done .nil)
  rw [hlength] at hpinned
  exact ⟨replies, b, r, b', hrun, hquery, hlength, hpinned⟩

end ScriptHost.Bridge
