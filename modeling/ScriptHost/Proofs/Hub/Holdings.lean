import Mathlib.Data.List.Count
import ScriptHost.Proofs.Hub.World

/-!
# What is kept for the handles of the host

The session that gave out a handle keeps its function pinned for all copies of it, until it is released;
after that none of its pins has the slot of the handle any more.  Every step of the host keeps it so.
-/

set_option autoImplicit false

namespace ScriptHost.Hub
open Lua

/-- What a session that gave out a handle keeps for it, as long as it is held so many times. -/
structure Follows (copies : Nat) (x : Holding) (s : Session) : Prop where
  slot : x.handle.slot < s.nextSlot
  epoch : x.epoch ≤ s.releases
  pinned : s.releases = x.epoch →
    ∃ p ∈ s.pins, p.slot = x.handle.slot ∧ x.function = some p.function ∧ copies ≤ p.holders
  unpinned : x.epoch < s.releases → ∀ p ∈ s.pins, p.slot ≠ x.handle.slot

theorem follows_keeps {copies : Nat} {x : Holding} {s s' : Session} (hk : s.Keeps s')
    (h : Follows copies x s) : Follows copies x s' where
  slot := Nat.lt_of_lt_of_le h.slot hk.next
  epoch := Nat.le_trans h.epoch hk.releases
  pinned heq := by
    have hold := h.epoch
    have hmore := hk.releases
    obtain ⟨p, hp, hslot, hrest⟩ := h.pinned (by omega)
    have hbefore : p.slot < s.nextSlot := hslot ▸ h.slot
    exact ⟨p, (hk.pins (by omega) p hbefore).mpr hp, hslot, hrest⟩
  unpinned hlt p hp hslot := by
    have hbefore : p.slot < s.nextSlot := hslot ▸ h.slot
    by_cases hreleased : s.releases < s'.releases
    · have := hk.cleared hreleased p hp
      omega
    · have hmore := hk.releases
      have hmem := (hk.pins (by omega) p hbefore).mp hp
      exact h.unpinned (by omega) p hmem hslot

theorem follows_retain {copies : Nat} {x : Holding} {s : Session} (handle : Handle)
    (hx : x.handle.session = s.id) (h : Follows copies x s) :
    Follows (copies + if handle = x.handle then 1 else 0) x (s.retain handle) := by
  by_cases hid : handle.session = s.id
  · have hpins := s.retain_pins handle hid
    refine ⟨by simpa using h.slot, by simpa using h.epoch, ?_, ?_⟩
    · intro heq
      obtain ⟨p, hp, hslot, hf, hcopies⟩ := h.pinned (by simpa using heq)
      refine ⟨Session.takeUp handle.slot p, ?_, by simp [hslot], by simp [hf], ?_⟩
      · rw [hpins]
        exact List.mem_map.mpr ⟨p, hp, rfl⟩
      · unfold Session.takeUp
        by_cases hsame : handle = x.handle
        · rw [if_pos hsame, if_pos (hslot.trans (hsame ▸ rfl))]
          exact Nat.succ_le_succ hcopies
        · rw [if_neg hsame]
          split
          · exact Nat.le_succ_of_le hcopies
          · exact hcopies
    · intro hlt p hp
      rw [hpins] at hp
      obtain ⟨q, hq, rfl⟩ := List.mem_map.mp hp
      rw [Session.takeUp_slot]
      exact h.unpinned (by simpa using hlt) q hq
  · have hne : handle ≠ x.handle := fun heq => hid (heq ▸ hx)
    rw [s.retain_foreign handle hid, if_neg hne]
    exact h

theorem follows_drop {copies : Nat} {x : Holding} {s : Session} (handle : Handle)
    (hx : x.handle.session = s.id) (hheld : 1 ≤ copies)
    (h : Follows (copies + if handle = x.handle then 1 else 0) x s) :
    Follows copies x (s.drop handle) := by
  refine ⟨by simpa using h.slot, by simpa using h.epoch, ?_, ?_⟩
  · intro heq
    obtain ⟨p, hp, hslot, hf, hcopies⟩ := h.pinned (by simpa using heq)
    by_cases hsame : handle = x.handle
    · rw [if_pos hsame] at hcopies
      have hshared := s.drop_shared handle (hsame ▸ hx) p hp (hsame ▸ hslot) (by omega)
      exact ⟨_, hshared, hslot, hf, by simp only; omega⟩
    · rw [if_neg hsame] at hcopies
      refine ⟨p, (s.drop_other handle p ?_).mpr hp, hslot, hf, hcopies⟩
      intro hid heq
      apply hsame
      cases handle
      cases hxh : x.handle
      simp_all
  · intro hlt p hp
    by_cases hid : handle.session = s.id
    · rw [s.drop_pins handle hid] at hp
      obtain ⟨q, hq, hgo⟩ := List.mem_filterMap.mp hp
      rw [Session.letGo_slot hgo]
      exact h.unpinned (by simpa using hlt) q hq
    · rw [s.drop_foreign handle hid] at hp
      exact h.unpinned (by simpa using hlt) p hp

structure Tracked (copies : Nat) (x : Holding) (b : Bridge) : Prop where
  opening : x.handle.session.opening < b.openings
  follows : ∀ s ∈ b.sessions, s.id = x.handle.session → Follows copies x s

structure Idle (b : Bridge) : Prop where
  free : b.busy = false
  still : ∀ s ∈ b.sessions, s.runs = 0

def copiesIn (held : List Holding) (handle : Handle) : Nat := (held.map (·.handle)).count handle

structure World.Sound (w : World) : Prop where
  bridges : ∀ n b, w.hub.bridge? n = some b → b.id = n ∧ b.Sound ∧ Idle b
  held : ∀ x ∈ w.held, ∃ b, w.hub.bridge? x.handle.session.bridge = some b ∧
    Tracked (copiesIn w.held x.handle) x b

@[simp] theorem holding_handle (hub : Hub) (handle : Handle) : (hub.holding handle).handle = handle := by
  unfold holding
  split <;> rfl

theorem holdings_handles (hub : Hub) (handles : List Handle) :
    (handles.map hub.holding).map (·.handle) = handles := by
  rw [List.map_map]
  exact (List.map_congr_left fun handle _ => hub.holding_handle handle).trans (List.map_id _)

theorem bridge_setBridge {hub : Hub} {n : Nat} {b : Bridge} (h : hub.bridge? n = some b)
    (b' : Bridge) (m : Nat) :
    (hub.setBridge n b').bridge? m = if n = m then some b' else hub.bridge? m := by
  have hn : n < hub.bridges.length := (List.getElem?_eq_some_iff.mp h).1
  simp only [bridge?, setBridge, List.getElem?_set]
  split
  · next hnm =>
    subst hnm
    simp
  · rfl

theorem run_cases {α : Type} {hub hub' : Hub} {n : Nat} {f : Bridge → Option (α × Bridge)} {r : α}
    (h : hub.run n f = some (r, hub')) :
    ∃ b b', hub.bridge? n = some b ∧ f b = some (r, b') ∧ hub' = hub.setBridge n b' := by
  unfold run at h
  split at h
  · simp at h
  · next b hb =>
    obtain ⟨⟨r', b'⟩, hf, heq⟩ := Option.map_eq_some_iff.mp h
    obtain ⟨rfl, rfl⟩ := Prod.mk.inj heq
    exact ⟨b, b', hb, hf, rfl⟩

/-- A session of a bridge after a call that gave out a handle of the world: it was there before. -/
theorem tracked_before {b b' : Bridge} (hlater : Bridge.Later b b') {copies : Nat}
    {x : Holding} (hx : Tracked copies x b) {s' : Session} (hs' : s' ∈ b'.sessions)
    (hid : s'.id = x.handle.session) :
    ∃ s ∈ b.sessions, s.id = x.handle.session ∧ s.Keeps s' ∧ Follows copies x s := by
  rcases hlater.kept s' hs' with ⟨s, hs, hk⟩ | ⟨hopening, -⟩
  · have hsid : s.id = x.handle.session := hk.id.symm.trans hid
    exact ⟨s, hs, hsid, hk, hx.follows s hs hsid⟩
  · have := hx.opening
    rw [hid] at hopening
    omega

/-- A handle that is held already is not given out again. -/
theorem tracked_not_granted {b b' : Bridge} (hlater : Bridge.Later b b')
    {handles : List Handle} (hg : Bridge.Granted b b' handles) {copies : Nat} {x : Holding}
    (hx : Tracked copies x b) {s' : Session} (hs' : s' ∈ b'.sessions)
    (hid : s'.id = x.handle.session) : x.handle ∉ handles := by
  intro hmem
  obtain ⟨s, hs, hsid, -, hfollows⟩ := tracked_before hlater hx hs' hid
  have hold := hfollows.slot
  have hnew := hg.new x.handle hmem s' hs' hid s hs hsid
  omega

theorem idle_later {b b' : Bridge} (hlater : Bridge.Later b b') (h : Idle b) : Idle b' where
  free := hlater.busy.trans h.free
  still s' hs' := by
    rcases hlater.kept s' hs' with ⟨s, hs, hk⟩ | ⟨-, hruns⟩
    · exact hk.runs.trans (h.still s hs)
    · exact hruns

@[simp] theorem copies_append (held : List Holding) (hub : Hub) (handles : List Handle) (handle : Handle) :
    copiesIn (held ++ handles.map hub.holding) handle = copiesIn held handle + handles.count handle := by
  rw [copiesIn, List.map_append, holdings_handles, List.count_append]
  rfl

/-- An old handle is no new one, so as many copies of it are held as before. -/
theorem tracked_later {b b' : Bridge} (hlater : Bridge.Later b b') {handles : List Handle}
    (hg : Bridge.Granted b b' handles) {copies : Nat} {x : Holding} (hx : Tracked copies x b) :
    Tracked (copies + handles.count x.handle) x b' where
  opening := Nat.lt_of_lt_of_le hx.opening hlater.openings
  follows s' hs' hid := by
    obtain ⟨s, -, -, hk, hfollows⟩ := tracked_before hlater hx hs' hid
    rw [List.count_eq_zero.mpr (tracked_not_granted hlater hg hx hs' hid)]
    exact follows_keeps hk hfollows

/-- The session of a handle that just came has its function pinned. -/
theorem granted_follows {hub : Hub} {b b' : Bridge} (hb' : b'.Sound) {handles : List Handle}
    (hg : Bridge.Granted b b' handles) {handle : Handle} (hmem : handle ∈ handles)
    (hfound : hub.bridge? handle.session.bridge = some b') {s' : Session} (hs' : s' ∈ b'.sessions)
    (hid : s'.id = handle.session) : Follows 1 (hub.holding handle) s' := by
  obtain ⟨hslot, p, hp, hps, hholders⟩ := hg.pinned handle hmem s' hs' hid
  have hsession : hub.session? handle.session = some s' := by
    rw [session?, hfound, ← hid]
    exact Bridge.find_of_mem hb' hs'
  have hresolve := (Session.resolve_iff (hb'.pins s' hs') handle p.function).mpr
    ⟨hid.symm, p, hp, hps, rfl⟩
  have hholding : hub.holding handle = ⟨handle, some p.function, s'.releases⟩ := by
    rw [holding, hsession]
    simp only [hresolve]
    rfl
  rw [hholding]
  exact ⟨hslot, Nat.le_refl _, fun _ => ⟨p, hp, hps, rfl, hholders⟩,
    fun hlt => absurd hlt (Nat.lt_irrefl _)⟩

theorem granted_unheld {w : World} (hw : w.Sound) {b b' : Bridge}
    (hn : w.hub.bridge? b.id = some b) (hlater : Bridge.Later b b') {handles : List Handle}
    (hg : Bridge.Granted b b' handles) {handle : Handle} (hmem : handle ∈ handles) {s' : Session}
    (hs' : s' ∈ b'.sessions) (hid : s'.id = handle.session) : copiesIn w.held handle = 0 := by
  rw [copiesIn, List.count_eq_zero]
  intro hold
  obtain ⟨y, hy, rfl⟩ := List.mem_map.mp hold
  obtain ⟨c, hc, htracked⟩ := hw.held y hy
  rw [(hg.named _ hmem).1, hn] at hc
  obtain rfl := Option.some.inj hc
  exact tracked_not_granted hlater hg htracked hs' hid hmem

theorem call_sound {w : World} (hw : w.Sound) {n : Nat} {b b' : Bridge} {handles : List Handle}
    (hn : w.hub.bridge? n = some b) (hb' : b'.Sound) (hlater : Bridge.Later b b')
    (hg : Bridge.Granted b b' handles) :
    World.Sound ⟨w.hub.setBridge n b', w.held ++ handles.map (w.hub.setBridge n b').holding⟩ := by
  obtain ⟨rfl, -, hidle⟩ := hw.bridges n b hn
  have hset := bridge_setBridge hn b'
  refine ⟨?_, ?_⟩
  · intro m c hm
    rw [hset] at hm
    split at hm
    · next heq =>
      obtain rfl := Option.some.inj hm
      exact ⟨hlater.id.trans heq, hb', idle_later hlater hidle⟩
    · exact hw.bridges m c hm
  · intro x hx
    simp [hset]
    rcases List.mem_append.mp hx with hx | hx
    · obtain ⟨c, hc, htracked⟩ := hw.held x hx
      by_cases hhere : b.id = x.handle.session.bridge
      · rw [if_pos hhere]
        rw [← hhere, hn] at hc
        obtain rfl := Option.some.inj hc
        exact ⟨b', rfl, tracked_later hlater hg htracked⟩
      · have hother : x.handle ∉ handles := fun hmem => hhere (hg.named _ hmem).1.symm
        rw [if_neg hhere, List.count_eq_zero.mpr hother]
        exact ⟨c, hc, htracked⟩
    · obtain ⟨handle, hmem, rfl⟩ := List.mem_map.mp hx
      obtain ⟨hbridge, hopening⟩ := hg.named handle hmem
      rw [holding_handle, if_pos hbridge.symm]
      refine ⟨b', rfl, (holding_handle _ handle).symm ▸ hopening, ?_⟩
      rw [holding_handle]
      intro s' hs' hid
      rw [granted_unheld hw hn hlater hg hmem hs' hid, List.count_eq_one_of_mem hg.once hmem]
      exact granted_follows hb' hg hmem (by rw [hset, if_pos hbridge.symm]) hs' hid

/-- Every session changed by itself, and no new handle held. -/
theorem each_sound {w : World} (hw : w.Sound) (g : Bridge → Bridge) (f : Session → Session)
    (held : List Holding) (hheld : ∀ x ∈ held, x ∈ w.held) (hruns : ∀ s, (f s).runs = s.runs)
    (hid : ∀ s, (f s).id = s.id) (hsound : ∀ b : Bridge, b.Sound → (g b).Sound)
    (hg : ∀ b, (g b).id = b.id ∧ (g b).busy = b.busy ∧ (g b).openings = b.openings ∧
      (g b).sessions = b.sessions.map f)
    (hf : ∀ x ∈ held, ∀ s : Session, s.id = x.handle.session →
      Follows (copiesIn w.held x.handle) x s → Follows (copiesIn held x.handle) x (f s)) :
    World.Sound ⟨⟨w.hub.bridges.map g⟩, held⟩ := by
  have hmap : ∀ n, Hub.bridge? ⟨w.hub.bridges.map g⟩ n = (w.hub.bridge? n).map g := by
    intro n
    simp [bridge?]
  refine ⟨?_, ?_⟩
  · intro n b' hn
    rw [hmap] at hn
    obtain ⟨b, hb, rfl⟩ := Option.map_eq_some_iff.mp hn
    obtain ⟨rfl, hbsound, hidle⟩ := hw.bridges n b hb
    obtain ⟨hgid, hbusy, -, hsessions⟩ := hg b
    refine ⟨hgid, hsound b hbsound, hbusy.trans hidle.free, ?_⟩
    intro s' hs'
    rw [hsessions] at hs'
    obtain ⟨s, hs, rfl⟩ := List.mem_map.mp hs'
    exact (hruns s).trans (hidle.still s hs)
  · intro x hx
    obtain ⟨b, hb, htracked⟩ := hw.held x (hheld x hx)
    obtain ⟨-, -, hopenings, hsessions⟩ := hg b
    refine ⟨g b, by rw [hmap, hb]; rfl, hopenings ▸ htracked.opening, ?_⟩
    intro s' hs' hsid
    rw [hsessions] at hs'
    obtain ⟨s, hs, rfl⟩ := List.mem_map.mp hs'
    have hown : s.id = x.handle.session := (hid s).symm.trans hsid
    exact hf x hx s hown (htracked.follows s hs hown)

@[simp] theorem copies_cons (x : Holding) (held : List Holding) (handle : Handle) :
    copiesIn (x :: held) handle = copiesIn held handle + if x.handle = handle then 1 else 0 := by
  simp [copiesIn, List.count_cons]

theorem copies_perm {held held' : List Holding} (h : held.Perm held') (handle : Handle) :
    copiesIn held handle = copiesIn held' handle :=
  (h.map _).count_eq handle

theorem clone_sound {w : World} (hw : w.Sound) {x : Holding} (hx : x ∈ w.held) :
    World.Sound ⟨w.hub.retain x.handle, w.held ++ [x]⟩ := by
  apply each_sound hw (·.retain x.handle) (·.retain x.handle)
  · intro y hy
    rcases List.mem_append.mp hy with hy | hy
    · exact hy
    · rw [List.mem_singleton.mp hy]
      exact hx
  · exact fun s => s.retain_runs x.handle
  · exact fun s => s.retain_id x.handle
  · exact fun b hb => Bridge.sound_retain hb x.handle
  · exact fun b => ⟨rfl, rfl, rfl, b.retain_sessions x.handle⟩
  · intro y _ s hsid hfollows
    rw [copies_perm List.perm_append_comm, List.singleton_append, copies_cons]
    exact follows_retain x.handle hsid.symm hfollows

theorem drop_sound {w : World} (hw : w.Sound) {i : Nat} {x : Holding} (hx : w.held[i]? = some x) :
    World.Sound ⟨w.hub.drop x.handle, w.held.eraseIdx i⟩ := by
  obtain ⟨hi, heq⟩ := List.getElem?_eq_some_iff.mp hx
  have hperm : w.held.Perm (x :: w.held.eraseIdx i) := by
    rw [← heq]
    exact (List.getElem_cons_eraseIdx_perm hi).symm
  apply each_sound hw (·.drop x.handle) (·.drop x.handle)
  · exact fun y hy => (List.eraseIdx_sublist _ _).subset hy
  · exact fun s => s.drop_runs x.handle
  · exact fun s => s.drop_id x.handle
  · exact fun b hb => Bridge.sound_drop hb x.handle
  · exact fun b => ⟨rfl, rfl, rfl, b.drop_sessions x.handle⟩
  · intro y hy s hsid hfollows
    rw [copies_perm hperm, copies_cons] at hfollows
    refine follows_drop x.handle hsid.symm ?_ hfollows
    exact List.count_pos_iff.mpr (List.mem_map.mpr ⟨y, hy, rfl⟩)

theorem open_sound {w : World} (hw : w.Sound) (config : Config) :
    World.Sound { w with hub := (w.hub.openBridge config).2 } := by
  have hold : ∀ n b, w.hub.bridge? n = some b →
      (w.hub.openBridge config).2.bridge? n = some b := by
    intro n b hn
    have hlt : n < w.hub.bridges.length := (List.getElem?_eq_some_iff.mp hn).1
    simp only [bridge?, openBridge, List.getElem?_append_left hlt]
    exact hn
  refine ⟨?_, ?_⟩
  · intro n b hn
    by_cases hlt : n < w.hub.bridges.length
    · apply hw.bridges n b
      simpa only [bridge?, openBridge, List.getElem?_append_left hlt] using hn
    · simp only [bridge?, openBridge] at hn
      rw [List.getElem?_append_right (by omega), List.getElem?_singleton] at hn
      split at hn
      · next hzero =>
        obtain rfl := Option.some.inj hn
        refine ⟨show w.hub.bridges.length = n by omega, Bridge.start_sound _ config, rfl, ?_⟩
        intro s hs
        obtain rfl := List.mem_singleton.mp hs
        rfl
      · simp at hn
  · intro x hx
    obtain ⟨b, hb, htracked⟩ := hw.held x hx
    exact ⟨b, hold _ b hb, htracked⟩

theorem step_sound {w w' : World} (hw : w.Sound) (op : Op) (h : step w op = some w') :
    w'.Sound := by
  cases op with
  | openBridge config =>
    obtain rfl := Option.some.inj h
    exact open_sound hw config
  | call n host fuel c =>
    obtain ⟨⟨handles, hub'⟩, hrun, rfl⟩ := Option.map_eq_some_iff.mp h
    obtain ⟨b, b', hn, hcall, rfl⟩ := run_cases hrun
    obtain ⟨-, hb, -⟩ := hw.bridges n b hn
    obtain ⟨hb', hlater, hg⟩ := call_granted host fuel _ b b' c handles hb hcall
    exact call_sound hw hn hb' hlater hg
  | clone i =>
    obtain ⟨x, hx, rfl⟩ := Option.map_eq_some_iff.mp h
    exact clone_sound hw (List.mem_of_getElem? hx)
  | drop i =>
    obtain ⟨x, hx, rfl⟩ := Option.map_eq_some_iff.mp h
    exact drop_sound hw hx

theorem after_sound {w w' : World} (hw : w.Sound) (ops : List Op) (h : after w ops = some w') :
    w'.Sound := by
  induction ops generalizing w with
  | nil =>
    obtain rfl := Option.some.inj h
    exact hw
  | cons op ops ih =>
    obtain ⟨w₁, hstep, hrest⟩ := Option.bind_eq_some_iff.mp h
    exact ih (step_sound hw op hstep) hrest

end ScriptHost.Hub
