import ScriptHost.Proofs.Session
import ScriptHost.Proofs.Bridge.Steady

/-!
# The sessions of a bridge

No two sessions of a bridge ever have one name.  Whatever a script does, a session that it leaves behind
either was there before, and has kept what it promised, or is new; one that is gone does not come back,
and one that a run is under way in does not go.
-/

set_option autoImplicit false

namespace ScriptHost.Bridge
open Lua

def sessions (b : Bridge) : List Session := b.session.toList ++ b.lingering

structure Sound (b : Bridge) : Prop where
  once : (b.sessions.map (·.id)).Nodup
  named : ∀ s ∈ b.sessions, s.id.bridge = b.id ∧ s.id.opening < b.openings
  pins : ∀ s ∈ b.sessions, s.Sound
  running : ∀ s ∈ b.lingering, s.runs ≠ 0

def Fresh (b : Bridge) (s : Session) : Prop := b.openings ≤ s.id.opening ∧ s.runs = 0

structure Later (b b' : Bridge) : Prop where
  id : b'.id = b.id
  config : b'.config = b.config
  busy : b'.busy = b.busy
  openings : b.openings ≤ b'.openings
  kept : ∀ s' ∈ b'.sessions, (∃ s ∈ b.sessions, s.Keeps s') ∨ Fresh b s'
  running : ∀ s ∈ b.sessions, s.runs ≠ 0 → ∃ s' ∈ b'.sessions, s'.id = s.id
  current : ∀ s', b'.session = some s' →
    (∃ s, b.session = some s ∧ s'.id = s.id) ∨ b.openings ≤ s'.id.opening

theorem mem_open {b : Bridge} {s : Session} (hs : b.session = some s) : s ∈ b.sessions := by
  simp [sessions, hs]

theorem mem_of_find {b : Bridge} {id : SessionId} {s : Session} (h : b.find? id = some s) :
    s ∈ b.sessions ∧ s.id = id :=
  ⟨List.mem_of_find?_eq_some h, by simpa using List.find?_some h⟩

theorem sound_unique {b : Bridge} (hb : b.Sound) {s t : Session} (hs : s ∈ b.sessions)
    (ht : t ∈ b.sessions) (hid : s.id = t.id) : s = t :=
  List.inj_on_of_nodup_map hb.once hs ht hid

theorem find_of_mem {b : Bridge} (hb : b.Sound) {s : Session} (hs : s ∈ b.sessions) :
    b.find? s.id = some s := by
  have hsome : (b.find? s.id).isSome := by
    simp only [find?, List.find?_isSome]
    exact ⟨s, hs, by simp⟩
  obtain ⟨t, ht⟩ := Option.isSome_iff_exists.mp hsome
  obtain ⟨hmem, hid⟩ := mem_of_find ht
  rw [ht, sound_unique hb hmem hs hid]

theorem start_sound (id : Nat) (config : Config) : (Bridge.start id config).Sound where
  once := List.nodup_singleton _
  named s hs := by
    obtain rfl := List.mem_singleton.mp hs
    exact ⟨rfl, Nat.one_pos⟩
  pins s hs := by
    obtain rfl := List.mem_singleton.mp hs
    exact Session.start_sound _ _
  running s hs := absurd hs List.not_mem_nil

theorem later_refl (b : Bridge) : Later b b where
  id := rfl
  config := rfl
  busy := rfl
  openings := Nat.le_refl _
  kept s hs := .inl ⟨s, hs, s.keeps_refl⟩
  running s hs _ := ⟨s, hs, rfl⟩
  current s hs := .inl ⟨s, hs, rfl⟩

theorem later_trans {a b c : Bridge} (ha : a.Sound) (h : Later a b) (h' : Later b c) : Later a c where
  id := h'.id.trans h.id
  config := h'.config.trans h.config
  busy := h'.busy.trans h.busy
  openings := Nat.le_trans h.openings h'.openings
  kept s hs := by
    have ho := h.openings
    rcases h'.kept s hs with ⟨t, ht, hts⟩ | ⟨hopening, hruns⟩
    · rcases h.kept t ht with ⟨u, hu, hut⟩ | ⟨hopening, hruns⟩
      · exact .inl ⟨u, hu, Session.keeps_trans hut hts⟩
      · exact .inr ⟨hts.id ▸ hopening, hts.runs.trans hruns⟩
    · exact .inr ⟨Nat.le_trans ho hopening, hruns⟩
  running s hs hruns := by
    obtain ⟨t, ht, hid⟩ := h.running s hs hruns
    have hkept : t.runs ≠ 0 := by
      rcases h.kept t ht with ⟨u, hu, hut⟩ | ⟨hopening, -⟩
      · obtain rfl := sound_unique ha hu hs (hut.id.symm.trans hid)
        rw [hut.runs]
        exact hruns
      · have := (ha.named s hs).2
        rw [hid] at hopening
        omega
    obtain ⟨u, hu, hut⟩ := h'.running t ht hkept
    exact ⟨u, hu, hut.trans hid⟩
  current s hs := by
    have ho := h.openings
    rcases h'.current s hs with ⟨t, ht, hid⟩ | hopening
    · rcases h.current t ht with ⟨u, hu, hid'⟩ | hopening
      · exact .inl ⟨u, hu, hid.trans hid'⟩
      · exact .inr (hid ▸ hopening)
    · exact .inr (Nat.le_trans ho hopening)

theorem sound_of_ids {b b' : Bridge} (hb : b.Sound) (hid : b'.id = b.id)
    (hopenings : b'.openings = b.openings)
    (hids : (b'.sessions.map (·.id)).Sublist (b.sessions.map (·.id)))
    (hpins : ∀ s ∈ b'.sessions, s.Sound) (hruns : ∀ s ∈ b'.lingering, s.runs ≠ 0) : b'.Sound where
  once := hb.once.sublist hids
  named s' hs' := by
    obtain ⟨s, hs, heq⟩ := List.mem_map.mp (hids.subset (List.mem_map.mpr ⟨s', hs', rfl⟩))
    rw [← heq, hid, hopenings]
    exact hb.named s hs
  pins := hpins
  running := hruns

/-- Each session changed by itself: the open one by `f`, those that linger by `g`. -/
theorem later_each {b b' : Bridge} (hb : b.Sound) (f g : Session → Session) (hid : b'.id = b.id)
    (hconfig : b'.config = b.config) (hbusy : b'.busy = b.busy) (hopenings : b'.openings = b.openings)
    (hsession : b'.session = b.session.map f) (hlingering : b'.lingering = b.lingering.map g)
    (hf : ∀ s, b.session = some s → s.Keeps (f s) ∧ (f s).Sound)
    (hg : ∀ s ∈ b.lingering, s.Keeps (g s) ∧ (g s).Sound) : b'.Sound ∧ Later b b' := by
  have hsessions : b'.sessions = (b.session.map f).toList ++ b.lingering.map g := by
    rw [sessions, hsession, hlingering]
  have hback : ∀ s' ∈ b'.sessions, ∃ s ∈ b.sessions, s.Keeps s' ∧ s'.Sound := by
    intro s' hs'
    rw [hsessions, List.mem_append, Option.mem_toList, Option.map_eq_some_iff] at hs'
    rcases hs' with ⟨s, hs, rfl⟩ | hs'
    · exact ⟨s, mem_open hs, hf s hs⟩
    · obtain ⟨s, hs, rfl⟩ := List.mem_map.mp hs'
      exact ⟨s, List.mem_append_right _ hs, hg s hs⟩
  have hids : b'.sessions.map (·.id) = b.sessions.map (·.id) := by
    rw [hsessions, sessions, List.map_append, List.map_append, List.map_map]
    congr 1
    · cases hs : b.session with
      | none => rfl
      | some s => simp [(hf s hs).1.id]
    · exact List.map_congr_left fun s hs => (hg s hs).1.id
  refine ⟨sound_of_ids hb hid hopenings (hids ▸ List.Sublist.refl _) ?_ ?_,
    ⟨hid, hconfig, hbusy, Nat.le_of_eq hopenings.symm, ?_, ?_, ?_⟩⟩
  · intro s' hs'
    obtain ⟨s, hs, -, hsound⟩ := hback s' hs'
    exact hsound
  · intro s' hs'
    rw [hlingering] at hs'
    obtain ⟨s, hs, rfl⟩ := List.mem_map.mp hs'
    rw [(hg s hs).1.runs]
    exact hb.running s hs
  · intro s' hs'
    obtain ⟨s, hs, hk, -⟩ := hback s' hs'
    exact .inl ⟨s, hs, hk⟩
  · intro s hs _
    have hmem : s.id ∈ b'.sessions.map (·.id) := hids ▸ List.mem_map.mpr ⟨s, hs, rfl⟩
    obtain ⟨s', hs', heq⟩ := List.mem_map.mp hmem
    exact ⟨s', hs', heq⟩
  · intro s' hs'
    rw [hsession, Option.map_eq_some_iff] at hs'
    obtain ⟨s, hs, rfl⟩ := hs'
    exact .inl ⟨s, hs, (hf s hs).1.id⟩

theorem later_update {b : Bridge} (hb : b.Sound) (id : SessionId) (f : Session → Session)
    (hf : ∀ s ∈ b.sessions, s.id = id → s.Keeps (f s) ∧ (f s).Sound) :
    (b.update id f).Sound ∧ Later b (b.update id f) := by
  have hchange : ∀ s ∈ b.sessions, s.Keeps (if s.id = id then f s else s) ∧
      Session.Sound (if s.id = id then f s else s) := by
    intro s hs
    split
    · next h => exact hf s hs h
    · exact ⟨s.keeps_refl, hb.pins s hs⟩
  exact later_each hb _ _ rfl rfl rfl rfl rfl rfl (fun s hs => hchange s (mem_open hs))
    fun s hs => hchange s (List.mem_append_right _ hs)

/-- A change of what no pin depends on. -/
theorem later_still {b : Bridge} (hb : b.Sound) (id : SessionId) (f : Session → Session)
    (hf : ∀ s, (f s).id = s.id ∧ (f s).pins = s.pins ∧ (f s).nextSlot = s.nextSlot ∧
      (f s).runs = s.runs ∧ (f s).releases = s.releases) :
    (b.update id f).Sound ∧ Later b (b.update id f) := by
  apply later_update hb
  intro s hs _
  obtain ⟨hid, hpins, hnext, hruns, hreleases⟩ := hf s
  have hsound := hb.pins s hs
  refine ⟨⟨hid, hruns, Nat.le_of_eq hnext.symm, Nat.le_of_eq hreleases.symm, ?_, ?_⟩, ?_, ?_⟩
  · intro _ p _
    rw [hpins]
  · intro h
    omega
  · exact hpins ▸ hsound.once
  · intro p hp
    rw [hnext]
    exact hsound.given p (hpins ▸ hp)

theorem later_release {b : Bridge} (hb : b.Sound) : b.release.2.Sound ∧ Later b b.release.2 := by
  apply later_each hb (fun s => s.release.2) (fun s => s)
  · unfold release
    split <;> rfl
  · unfold release
    split <;> rfl
  · unfold release
    split <;> rfl
  · unfold release
    split <;> rfl
  · unfold release
    split
    · next hs => rw [hs]; rfl
    · next s hs => rw [hs]; rfl
  · unfold release
    split <;> simp
  · exact fun s _ => s.release_keeps
  · exact fun s hs => ⟨s.keeps_refl, hb.pins s (List.mem_append_right _ hs)⟩

theorem sessions_open {b : Bridge} {s : Session} (hs : b.session = some s) :
    b.sessions = s :: b.lingering := by
  simp [sessions, hs]

/-- A session that no run is under way in goes. -/
theorem later_gone {b : Bridge} (hb : b.Sound) {s : Session} (hs : b.session = some s)
    (hruns : s.runs = 0) : ({ b with session := none } : Bridge).Sound ∧
      Later b { b with session := none } := by
  have hall := sessions_open hs
  refine ⟨sound_of_ids hb rfl rfl ?_ ?_ hb.running, ⟨rfl, rfl, rfl, Nat.le_refl _, ?_, ?_, by simp⟩⟩
  · rw [hall, List.map_cons]
    exact List.sublist_cons_self _ _
  · exact fun t ht => hb.pins t (List.mem_append_right _ ht)
  · exact fun t ht => .inl ⟨t, List.mem_append_right _ ht, t.keeps_refl⟩
  · intro t ht hrunning
    rw [hall] at ht
    rcases List.mem_cons.mp ht with rfl | ht
    · exact absurd hruns hrunning
    · exact ⟨t, ht, rfl⟩

/-- A session that a run is under way in lingers without its pins. -/
theorem later_lingers {b : Bridge} (hb : b.Sound) {s : Session} (hs : b.session = some s)
    (hruns : s.runs ≠ 0) :
    ({ b with session := none, lingering := s.release.2 :: b.lingering } : Bridge).Sound ∧
      Later b { b with session := none, lingering := s.release.2 :: b.lingering } := by
  have hall := sessions_open hs
  have hafter : ∀ t ∈ s.release.2 :: b.lingering, ∃ u ∈ b.sessions, u.Keeps t ∧ t.Sound := by
    intro t ht
    rcases List.mem_cons.mp ht with rfl | ht
    · exact ⟨s, mem_open hs, s.release_keeps⟩
    · have hmem : t ∈ b.sessions := List.mem_append_right _ ht
      exact ⟨t, hmem, t.keeps_refl, hb.pins t hmem⟩
  refine ⟨sound_of_ids hb rfl rfl ?_ ?_ ?_, ⟨rfl, rfl, rfl, Nat.le_refl _, ?_, ?_, by simp⟩⟩
  · rw [hall]
    exact List.Sublist.refl _
  · intro t ht
    obtain ⟨u, hu, -, hsound⟩ := hafter t ht
    exact hsound
  · intro t ht
    rcases List.mem_cons.mp ht with rfl | ht
    · exact hruns
    · exact hb.running t ht
  · intro t ht
    obtain ⟨u, hu, hk, -⟩ := hafter t ht
    exact .inl ⟨u, hu, hk⟩
  · intro t ht _
    rw [hall] at ht
    rcases List.mem_cons.mp ht with rfl | ht
    · exact ⟨t.release.2, List.mem_cons_self, rfl⟩
    · exact ⟨t, List.mem_cons_of_mem _ ht, rfl⟩

theorem later_close {b : Bridge} (hb : b.Sound) : b.close.2.Sound ∧ Later b b.close.2 := by
  unfold close
  split
  · exact ⟨hb, later_refl b⟩
  · split
    · exact ⟨hb, later_refl b⟩
    · next s hs =>
      by_cases hruns : s.runs = 0
      · simp only [if_pos hruns]
        exact later_gone hb hs hruns
      · simp only [if_neg hruns]
        exact later_lingers hb hs hruns

theorem later_reopen {b : Bridge} (hb : b.Sound) (hclosed : b.session = none) :
    b.reopen.Sound ∧ Later b b.reopen := by
  have hold : b.sessions = b.lingering := by simp [sessions, hclosed]
  have hall : b.reopen.sessions = Session.start ⟨b.id, b.openings⟩ b.config :: b.sessions := by
    rw [hold]
    rfl
  refine ⟨⟨?_, ?_, ?_, hb.running⟩, ⟨rfl, rfl, rfl, Nat.le_succ _, ?_, ?_, ?_⟩⟩
  · rw [hall, List.map_cons, List.nodup_cons]
    refine ⟨?_, hb.once⟩
    intro hmem
    obtain ⟨t, ht, hid⟩ := List.mem_map.mp hmem
    have := (hb.named t ht).2
    rw [hid] at this
    simp [Session.start] at this
  · intro t ht
    rw [hall] at ht
    rcases List.mem_cons.mp ht with rfl | ht
    · exact ⟨rfl, Nat.lt_succ_self _⟩
    · have := hb.named t ht
      exact ⟨this.1, Nat.lt_succ_of_lt this.2⟩
  · intro t ht
    rw [hall] at ht
    rcases List.mem_cons.mp ht with rfl | ht
    · exact Session.start_sound _ _
    · exact hb.pins t ht
  · intro t ht
    rw [hall] at ht
    rcases List.mem_cons.mp ht with rfl | ht
    · exact .inr ⟨Nat.le_refl _, rfl⟩
    · exact .inl ⟨t, ht, t.keeps_refl⟩
  · intro t ht _
    exact ⟨t, by rw [hall]; exact List.mem_cons_of_mem _ ht, rfl⟩
  · intro t ht
    obtain rfl := Option.some.inj ht
    exact .inr (Nat.le_refl _)

theorem close_closed {b b' : Bridge} (h : b.close = (.ok (), b')) : b'.session = none := by
  unfold close at h
  split at h
  · simp at h
  · split at h
    · next hs =>
      obtain ⟨-, rfl⟩ := Prod.mk.inj h
      exact hs
    · obtain ⟨-, rfl⟩ := Prod.mk.inj h
      rfl

theorem later_reset {b : Bridge} (hb : b.Sound) : b.reset.2.Sound ∧ Later b b.reset.2 := by
  have hclose := later_close hb
  unfold reset
  split
  · next e b₁ he =>
    rw [he] at hclose
    exact hclose
  · next b₁ hok =>
    rw [hok] at hclose
    obtain ⟨hsound, hlater⟩ := hclose
    obtain ⟨hsound', hlater'⟩ := later_reopen hsound (close_closed hok)
    exact ⟨hsound', later_trans hb hlater hlater'⟩

@[simp] theorem update_sessions (b : Bridge) (id : SessionId) (f : Session → Session) :
    (b.update id f).sessions = b.sessions.map fun s => if s.id = id then f s else s := by
  rw [sessions, sessions, List.map_append]
  congr 1
  cases hs : b.session <;> simp [update, hs]

theorem update_ids (b : Bridge) (id : SessionId) (f : Session → Session)
    (hf : ∀ s, (f s).id = s.id) : (b.update id f).sessions.map (·.id) = b.sessions.map (·.id) := by
  rw [update_sessions, List.map_map]
  apply List.map_congr_left
  intro s _
  simp only [Function.comp_apply]
  split
  · exact hf s
  · rfl

theorem find_map {b b' : Bridge} {f : Session → Session} (hid : ∀ s, (f s).id = s.id)
    (h : b'.sessions = b.sessions.map f) (id : SessionId) : b'.find? id = (b.find? id).map f := by
  have hsame : (fun s : Session => decide (s.id = id)) ∘ f = fun s => decide (s.id = id) := by
    funext s
    simp only [Function.comp_apply, hid]
  show b'.sessions.find? _ = (b.sessions.find? _).map f
  rw [h, List.find?_map, hsame]

theorem find_update (b : Bridge) (id : SessionId) (f : Session → Session)
    (hid : ∀ s, s.id = id → (f s).id = id) : (b.update id f).find? id = (b.find? id).map f := by
  rw [find_map (f := fun s => if s.id = id then f s else s) ?_ (update_sessions b id f)]
  · cases hs : b.find? id with
    | none => rfl
    | some s =>
      rw [Option.map_some, Option.map_some, if_pos (mem_of_find hs).2]
  · intro s
    by_cases hs : s.id = id
    · rw [if_pos hs, hid s hs, hs]
    · rw [if_neg hs]

/-- A change that leaves other sessions alone anyway may be made to all of them. -/
theorem update_own (b : Bridge) (id : SessionId) (f : Session → Session)
    (hf : ∀ s, s.id ≠ id → f s = s) : (b.update id f).sessions = b.sessions.map f := by
  rw [update_sessions]
  apply List.map_congr_left
  intro s _
  split
  · rfl
  · next hid => exact (hf s hid).symm

theorem sound_update {b : Bridge} (hb : b.Sound) (id : SessionId) (f : Session → Session)
    (hid : ∀ s, (f s).id = s.id) (hruns : ∀ s, (f s).runs = s.runs)
    (hf : ∀ s, s.Sound → (f s).Sound) : (b.update id f).Sound := by
  refine sound_of_ids hb rfl rfl (update_ids b id f hid ▸ List.Sublist.refl _) ?_ ?_
  · intro t ht
    rw [update_sessions] at ht
    obtain ⟨s, hs, rfl⟩ := List.mem_map.mp ht
    have hsound := hb.pins s hs
    split
    · exact hf s hsound
    · exact hsound
  · intro t ht
    obtain ⟨s, hs, rfl⟩ := List.mem_map.mp ht
    have hrunning := hb.running s hs
    split
    · rw [hruns]
      exact hrunning
    · exact hrunning

theorem sound_putHeap {b : Bridge} (hb : b.Sound) (id : SessionId) (h : Lua.Heap) :
    (b.putHeap id h).Sound :=
  sound_update hb id (fun s => { s with heap := h }) (fun _ => rfl) (fun _ => rfl)
    fun _ hs => { hs with }

theorem sound_enterRun {b : Bridge} (hb : b.Sound) (id : SessionId) : (b.enterRun id).Sound := by
  refine sound_of_ids hb rfl rfl ?_ ?_ ?_
  · rw [enterRun, update_ids b id]
    exact fun _ => rfl
  · intro t ht
    rw [enterRun, update_sessions] at ht
    obtain ⟨s, hs, rfl⟩ := List.mem_map.mp ht
    have hsound := hb.pins s hs
    split
    · exact ⟨hsound.once, hsound.given⟩
    · exact hsound
  · intro t ht
    obtain ⟨s, hs, rfl⟩ := List.mem_map.mp ht
    have := hb.running s hs
    split
    · exact Nat.succ_ne_zero _
    · exact this

def less (id : SessionId) (s : Session) : Session :=
  if s.id = id then { s with runs := s.runs - 1 } else s

@[simp] theorem less_id (id : SessionId) (s : Session) : (less id s).id = s.id := by
  unfold less
  split <;> rfl

@[simp] theorem less_pins (id : SessionId) (s : Session) : (less id s).pins = s.pins := by
  unfold less
  split <;> rfl

@[simp] theorem less_nextSlot (id : SessionId) (s : Session) : (less id s).nextSlot = s.nextSlot := by
  unfold less
  split <;> rfl

@[simp] theorem less_releases (id : SessionId) (s : Session) : (less id s).releases = s.releases := by
  unfold less
  split <;> rfl

theorem leaveRun_sublist (b : Bridge) (id : SessionId) :
    (b.leaveRun id).sessions.Sublist (b.sessions.map (less id)) := by
  have hall := update_sessions b id fun s => { s with runs := s.runs - 1 }
  have hless : b.sessions.map (less id) = (b.update id fun s => { s with runs := s.runs - 1 }).sessions :=
    hall.symm
  rw [hless]
  exact (List.Sublist.refl _).append List.filter_sublist

theorem mem_leaveRun {b : Bridge} {id : SessionId} {s : Session} (hs : s ∈ b.sessions)
    (hruns : (less id s).runs ≠ 0) : less id s ∈ (b.leaveRun id).sessions := by
  rcases List.mem_append.mp hs with hopen | hlingers
  · apply List.mem_append_left
    rw [Option.mem_toList] at hopen ⊢
    exact Option.map_eq_some_iff.mpr ⟨s, hopen, rfl⟩
  · apply List.mem_append_right
    exact List.mem_filter.mpr ⟨List.mem_map.mpr ⟨s, hlingers, rfl⟩, by simpa using hruns⟩

theorem sound_leaveRun {b : Bridge} (hb : b.Sound) (id : SessionId) : (b.leaveRun id).Sound := by
  have hsub := leaveRun_sublist b id
  refine sound_of_ids hb rfl rfl ?_ ?_ ?_
  · have hids := hsub.map (·.id)
    rwa [List.map_map, show ((·.id) ∘ less id : Session → SessionId) = (·.id) from
      funext fun s => (less_id id s)] at hids
  · intro t ht
    obtain ⟨s, hs, rfl⟩ := List.mem_map.mp (hsub.subset ht)
    have hsound := hb.pins s hs
    exact ⟨by simpa using hsound.once, fun p hp => by simpa using hsound.given p (by simpa using hp)⟩
  · intro t ht
    simpa using (List.mem_filter.mp ht).2

/-- A session that was entered and is left is as if only what happened in between had happened. -/
theorem keeps_less {id : SessionId} {s t : Session}
    (hk : Session.Keeps (if s.id = id then { s with runs := s.runs + 1 } else s) t) :
    s.Keeps (less id t) := by
  by_cases hid : s.id = id
  · rw [if_pos hid] at hk
    have htid : t.id = id := hk.id.trans hid
    rw [less, if_pos htid]
    exact ⟨hk.id, by simp [hk.runs], hk.next, hk.releases, hk.pins, hk.cleared⟩
  · rw [if_neg hid] at hk
    rw [less, if_neg (hk.id ▸ hid)]
    exact hk

theorem later_leaveRun {b b' : Bridge} (hb : b.Sound) (id : SessionId)
    (h : Later (b.enterRun id) b') : Later b (b'.leaveRun id) := by
  have hall := update_sessions b id fun s => { s with runs := s.runs + 1 }
  have hkept : ∀ t ∈ b'.sessions, (∃ s ∈ b.sessions, s.Keeps (less id t)) ∨ Fresh b (less id t) := by
    intro t ht
    rcases h.kept t ht with ⟨u, hu, hk⟩ | ⟨hopening, hruns⟩
    · rw [enterRun, hall] at hu
      obtain ⟨s, hs, rfl⟩ := List.mem_map.mp hu
      exact .inl ⟨s, hs, keeps_less hk⟩
    · refine .inr ⟨(less_id id t) ▸ hopening, ?_⟩
      unfold less
      split
      · simp [hruns]
      · exact hruns
  refine ⟨h.id, h.config, h.busy, h.openings, ?_, ?_, ?_⟩
  · intro t ht
    obtain ⟨u, hu, rfl⟩ := List.mem_map.mp ((leaveRun_sublist b' id).subset ht)
    exact hkept u hu
  · intro s hs hruns
    have hentered : (if s.id = id then { s with runs := s.runs + 1 } else s) ∈
        (b.enterRun id).sessions := by
      rw [enterRun, hall]
      exact List.mem_map.mpr ⟨s, hs, rfl⟩
    obtain ⟨t, ht, htid⟩ := h.running _ hentered (by split <;> simp [hruns])
    have hid : t.id = s.id := by
      rw [htid]
      split <;> rfl
    have hless : (less id t).runs ≠ 0 := by
      rcases hkept t ht with ⟨u, hu, hk⟩ | ⟨hopening, -⟩
      · obtain rfl := sound_unique hb hu hs (hk.id.symm.trans ((less_id id t).trans hid))
        rw [hk.runs]
        exact hruns
      · have := (hb.named s hs).2
        rw [(less_id id t), hid] at hopening
        omega
    exact ⟨less id t, mem_leaveRun ht hless, (less_id id t).trans hid⟩
  · intro t ht
    obtain ⟨u, hu, rfl⟩ := Option.map_eq_some_iff.mp ht
    have hsame : (if u.id = id then { u with runs := u.runs - 1 } else u).id = u.id := by
      split <;> rfl
    rw [hsame]
    rcases h.current u hu with ⟨s, hs, hid⟩ | hopening
    · obtain ⟨s₀, hs₀, rfl⟩ := Option.map_eq_some_iff.mp hs
      refine .inl ⟨s₀, hs₀, hid.trans ?_⟩
      split <;> rfl
    · exact .inr hopening

@[simp] theorem unpinSince_sessions (b before : Bridge) :
    (b.unpinSince before).sessions = b.sessions.map fun s => s.dropFrom (before.nextSlot s.id) := by
  rw [sessions, sessions, List.map_append]
  congr 1
  cases hs : b.session <;> simp [unpinSince, hs]

theorem later_unpin {b b' : Bridge} (hb : b.Sound) (hb' : b'.Sound) (h : Later b b') :
    (b'.unpinSince b).Sound ∧ Later b (b'.unpinSince b) := by
  have hall := unpinSince_sessions b' b
  have hids : (b'.unpinSince b).sessions.map (·.id) = b'.sessions.map (·.id) := by
    rw [hall, List.map_map]
    rfl
  refine ⟨sound_of_ids hb' rfl rfl (hids ▸ List.Sublist.refl _) ?_ ?_,
    ⟨h.id, h.config, h.busy, h.openings, ?_, ?_, ?_⟩⟩
  · intro t ht
    rw [hall] at ht
    obtain ⟨s, hs, rfl⟩ := List.mem_map.mp ht
    exact Session.dropFrom_sound (hb'.pins s hs) _
  · intro t ht
    obtain ⟨s, hs, rfl⟩ := List.mem_map.mp ht
    exact hb'.running s hs
  · intro t ht
    rw [hall] at ht
    obtain ⟨u, hu, rfl⟩ := List.mem_map.mp ht
    rcases h.kept u hu with ⟨s, hs, hk⟩ | hfresh
    · have hslot : b.nextSlot u.id = s.nextSlot := by
        rw [nextSlot, hk.id, find_of_mem hb hs]
      rw [hslot]
      exact .inl ⟨s, hs, Session.dropFrom_keeps hk⟩
    · exact .inr hfresh
  · intro s hs hruns
    obtain ⟨t, ht, hid⟩ := h.running s hs hruns
    obtain ⟨u, hu, heq⟩ := List.mem_map.mp (hids ▸ List.mem_map.mpr ⟨t, ht, rfl⟩)
    exact ⟨u, hu, heq.trans hid⟩
  · intro t ht
    obtain ⟨u, hu, rfl⟩ := Option.map_eq_some_iff.mp ht
    exact h.current u hu

theorem standard_cases (b : Bridge) (id : SessionId) (f : StandardFn) (args : List Value) :
    (b.standard id f args).2 = b ∨ (∃ log, (b.standard id f args).2 = { b with log }) ∨
      (∃ emitted, (b.standard id f args).2 = { b with emitted }) ∨
      ∃ d, (b.standard id f args).2 = b.setState id d := by
  cases f with
  | log => exact .inr (.inl ⟨_, rfl⟩)
  | stateSet =>
    simp only [standard]
    split
    · exact .inl rfl
    · split
      · exact .inl rfl
      · exact .inr (.inr (.inr ⟨_, rfl⟩))
  | stateClear =>
    simp only [standard]
    split
    · exact .inl rfl
    · exact .inr (.inr (.inr ⟨_, rfl⟩))
  | emitter node sink =>
    simp only [standard]
    split
    · exact .inl rfl
    · unfold emit
      split
      · exact .inr (.inr (.inl ⟨_, rfl⟩))
      · exact .inl rfl
  | stateGet =>
    simp only [standard]
    split <;> exact .inl rfl
  | stateAll =>
    simp only [standard]
    split <;> exact .inl rfl
  | _ => exact .inl rfl

/-- Whatever is done in a sound bridge leaves a sound bridge that is later. -/
theorem later_steady : Steady fun b b' => b.Sound → b'.Sound ∧ Later b b' where
  refl b hb := ⟨hb, later_refl b⟩
  trans h h' ha := by
    obtain ⟨hb, hab⟩ := h ha
    obtain ⟨hc, hbc⟩ := h' hb
    exact ⟨hc, later_trans ha hab hbc⟩
  heap b id h hb := later_still hb id _ fun _ => ⟨rfl, rfl, rfl, rfl, rfl⟩
  outward b id s d hs hb := by
    obtain ⟨hmem, hid⟩ := mem_of_find hs
    apply later_update hb
    intro t ht htid
    obtain rfl := sound_unique hb ht hmem (htid.trans hid.symm)
    exact Session.outward_keeps (hb.pins t ht) d
  inward b id s h hs hb := by
    obtain ⟨hmem, hid⟩ := mem_of_find hs
    apply later_update hb
    intro t ht htid
    obtain rfl := sound_unique hb ht hmem (htid.trans hid.symm)
    have hsound := hb.pins t ht
    exact ⟨{ t.keeps_refl with }, hsound.once, hsound.given⟩
  standard b id f args hb := by
    rcases standard_cases b id f args with h | ⟨_, h⟩ | ⟨_, h⟩ | ⟨d, h⟩
    · rw [h]
      exact ⟨hb, later_refl b⟩
    · rw [h]
      exact ⟨{ hb with }, { later_refl b with }⟩
    · rw [h]
      exact ⟨{ hb with }, { later_refl b with }⟩
    · rw [h]
      exact later_still hb id _ fun _ => ⟨rfl, rfl, rfl, rfl, rfl⟩
  release b hb := later_release hb
  close b hb := later_close hb
  reset b hb := later_reset hb
  installed b id hb := later_still hb id _ fun _ => ⟨rfl, rfl, rfl, rfl, rfl⟩
  guarded b b' hidle h hb := by
    obtain ⟨hb', hlater⟩ := h { hb with }
    exact ⟨{ hb' with }, { hlater with busy := hidle.symm }⟩
  runs b b' id h hb := by
    obtain ⟨hb', hlater⟩ := h (sound_enterRun hb id)
    exact ⟨sound_leaveRun hb' id, later_leaveRun hb id hlater⟩
  unpin b b' h hb := by
    obtain ⟨hb', hlater⟩ := h hb
    exact later_unpin hb hb' hlater

end ScriptHost.Bridge
