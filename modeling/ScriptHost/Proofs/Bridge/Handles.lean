import ScriptHost.Proofs.Bridge.Sessions
import ScriptHost.Proofs.Ui.Tree
import ScriptHost.Ui.Run

/-!
# Handles that a bridge gives out

The handles in an answer are new: no session had given out their slots before.  If their session is still
there, each has its function pinned.
-/

set_option autoImplicit false

namespace ScriptHost.Bridge
open Lua

/-- What is shown of the runs of a sound bridge beside that it is sound and later in the end: what is so
after the turns of a session, and of what a run brings. -/
structure Yield where
  turns : Bridge → Bridge → Prop
  brings : SessionId → Bridge → Bridge → Except ScriptError Value → Prop
  refl : ∀ {b : Bridge}, b.Sound → turns b b
  trans : ∀ {a b c : Bridge}, a.Sound → Later a b → Later b c → turns a b → turns b c → turns a c
  heap : ∀ {b : Bridge} (id : SessionId) (h : Heap), b.Sound → turns b (b.putHeap id h)
  inward : ∀ {b : Bridge} {id : SessionId} {s : Session} (h : Heap), b.Sound → b.find? id = some s →
    turns b (b.update id fun _ => { s with heap := h })
  unpin : ∀ {b c : Bridge}, b.Sound → c.Sound → Later b c → turns b (c.unpinSince b)
  error : ∀ {b : Bridge} (id : SessionId) (e : ScriptError), b.Sound → brings id b b (.error e)
  out : ∀ {b : Bridge} (id : SessionId) (d : Datum), b.Sound →
    brings id b (b.outward id d).2 (b.outward id d).1
  after : ∀ {id : SessionId} {a b c : Bridge} {r : Except ScriptError Value}, a.Sound → Later a b →
    Later b c → turns a b → brings id b c r → brings id a c r
  left : ∀ {id : SessionId} {b c : Bridge} {r : Except ScriptError Value}, brings id (b.enterRun id) c r →
    brings id b (c.leaveRun id) r
  marked : ∀ {id : SessionId} {b c : Bridge} {r : Except ScriptError Value},
    brings id { b with busy := true } c r → brings id b c.leave r

namespace Yield

def Ahead (b b' : Bridge) : Prop := b'.Sound ∧ Later b b'

theorem ahead_trans {a b c : Bridge} (ha : a.Sound) (h : Ahead a b) (h' : Ahead b c) : Ahead a c :=
  ⟨h'.1, later_trans ha h.2 h'.2⟩

variable (Y : Yield)

theorem turns_inward {b : Bridge} (hb : b.Sound) (id : SessionId) (v : Value) :
    Y.turns b (b.inward id v).2 := by
  obtain h | ⟨s, heap, hs, h⟩ := inward_cases b id v <;> rw [h]
  · exact Y.refl hb
  · exact Y.inward heap hb hs

theorem turns_inwardAll {b : Bridge} (hb : b.Sound) (id : SessionId) (vs : List Value) :
    Y.turns b (b.inwardAll id vs).2 := by
  obtain h | ⟨s, heap, hs, h⟩ := inwardAll_cases b id vs <;> rw [h]
  · exact Y.refl hb
  · exact Y.inward heap hb hs

theorem turns_takeHeap {b : Bridge} (hb : b.Sound) (id : SessionId) : Y.turns b (b.takeHeap id).2 := by
  obtain h | h := takeHeap_cases b id <;> rw [h]
  · exact Y.refl hb
  · exact Y.heap id default hb

theorem turns_standard {b : Bridge} (hb : b.Sound) (id : SessionId) (f : StandardFn) (args : List Datum) :
    Y.turns b (b.callStandard id f args).2 := by
  obtain ⟨c, hc, hlead⟩ := callStandard_unpins later_steady.toCalm b id f args
  obtain ⟨hsound, hlater⟩ := hlead hb
  exact hc ▸ Y.unpin hb hsound hlater

def walk (host : Host) : Walk host where
  outer := Sound
  inner := Sound
  within _ := Sound
  turns _ _ b b' := Ahead b b' ∧ Y.turns b b'
  asks _ := Ahead
  brings id _ b b' r := Ahead b b' ∧ Y.brings id b b' r
  outer_inner hb := hb
  inner_busy hb _ := hb
  inner_marked hb _ := { hb with }
  inner_within hb := hb
  inner_kept h _ := h.1
  within_open hb _ := hb
  within_kept h _ := h.1
  within_entered hb := sound_enterRun hb _
  turns_refl hb := ⟨⟨hb, later_refl _⟩, Y.refl hb⟩
  turns_trans ha h h' := ⟨ahead_trans ha h.1 h'.1, Y.trans ha h.1.2 h'.1.2 h.2 h'.2⟩
  turns_put hb _ := ⟨later_steady.heap _ _ _ hb, Y.heap _ _ hb⟩
  turns_take hb := ⟨takeHeap_leads later_steady.toCalm _ _ hb, Y.turns_takeHeap hb _⟩
  turns_in hb _ := ⟨inward_leads later_steady.toCalm _ _ _ hb, Y.turns_inward hb _ _⟩
  turns_inAll hb _ := ⟨inwardAll_leads later_steady.toCalm _ _ _ hb, Y.turns_inwardAll hb _ _⟩
  turns_standard args hb _ :=
    ⟨callStandard_leads later_steady.toCalm _ _ _ args hb, Y.turns_standard hb _ _ args⟩
  turns_custom _ _ hb _ h := ⟨later_unpin hb h.1 h.2, Y.unpin hb h.1 h.2⟩
  asks_refl hb := ⟨hb, later_refl _⟩
  asks_trans := ahead_trans
  asks_turns _ h := h.1
  asks_out args hb := outwardAll_leads later_steady.toCalm _ _ args hb
  asks_release _ := later_release
  asks_close _ := later_close
  asks_reset _ := later_reset
  asks_brings _ h := h.1
  brings_error e hb := ⟨⟨hb, later_refl _⟩, Y.error _ e hb⟩
  brings_out d hb := ⟨outward_leads later_steady.toCalm _ _ d hb, Y.out _ d hb⟩
  brings_after ha h h' := ⟨ahead_trans ha h.1 h'.1, Y.after ha h.1.2 h'.1.2 h.2 h'.2⟩
  brings_left hb h := ⟨⟨sound_leaveRun h.1.1 _, later_leaveRun hb _ h.1.2⟩, Y.left h.2⟩
  brings_marked _ hfree _ h := ⟨⟨{ h.1.1 with }, { h.1.2 with busy := hfree.symm }⟩, Y.marked h.2⟩

theorem walked (host : Host) (fuel : Nat) : Walk.Walked (Y.walk host) host fuel :=
  Walk.walked _ (fun name args _ => (host name args).asks_any.matches) fuel

end Yield

structure Granted (b b' : Bridge) (handles : List Handle) : Prop where
  once : handles.Nodup
  named : ∀ h ∈ handles, h.session.bridge = b.id ∧ h.session.opening < b'.openings
  new : ∀ h ∈ handles, ∀ s' ∈ b'.sessions, s'.id = h.session →
    ∀ s ∈ b.sessions, s.id = h.session → s.nextSlot ≤ h.slot
  pinned : ∀ h ∈ handles, ∀ s' ∈ b'.sessions, s'.id = h.session →
    h.slot < s'.nextSlot ∧ ∃ p ∈ s'.pins, p.slot = h.slot ∧ 1 ≤ p.holders

theorem granted_nil (b b' : Bridge) : Granted b b' [] :=
  ⟨List.nodup_nil, by simp, by simp, by simp⟩

/-- A session of a later bridge that is older than both is the same session all the way. -/
theorem kept_of_old {a b : Bridge} (ha : a.Sound) (h : Later a b) {s s' : Session}
    (hs : s ∈ a.sessions) (hs' : s' ∈ b.sessions) (hid : s'.id = s.id) : s.Keeps s' := by
  rcases h.kept s' hs' with ⟨t, ht, hk⟩ | ⟨hopening, -⟩
  · obtain rfl := sound_unique ha ht hs (hk.id.symm.trans hid)
    exact hk
  · have := (ha.named s hs).2
    rw [hid] at hopening
    omega

/-- What happened before does not make handles old. -/
theorem granted_after {a b c : Bridge} {handles : List Handle} (ha : a.Sound) (h : Later a b)
    (h' : Later b c) (hg : Granted b c handles) : Granted a c handles where
  once := hg.once
  named handle hmem := by
    rw [← h.id]
    exact hg.named handle hmem
  new handle hmem u hu huid s hs hsid := by
    rcases h'.kept u hu with ⟨t, ht, hk⟩ | ⟨hopening, -⟩
    · have htid : t.id = handle.session := hk.id.symm.trans huid
      have hst := kept_of_old ha h hs ht (htid.trans hsid.symm)
      exact Nat.le_trans hst.next (hg.new handle hmem u hu huid t ht htid)
    · have h1 := (ha.named s hs).2
      have h2 := h.openings
      rw [huid, ← hsid] at hopening
      omega
  pinned := hg.pinned

/-- What happens afterwards to other pins does not matter. -/
theorem granted_before {a b c : Bridge} {handles : List Handle} (hg : Granted a b handles)
    (hopenings : b.openings ≤ c.openings)
    (hback : ∀ u ∈ c.sessions, ∃ t ∈ b.sessions, u.id = t.id ∧ u.nextSlot = t.nextSlot ∧
      ∀ p ∈ t.pins, (∃ h ∈ handles, h.session = t.id ∧ h.slot = p.slot) → p ∈ u.pins) :
    Granted a c handles where
  once := hg.once
  named h hmem := ⟨(hg.named h hmem).1, Nat.lt_of_lt_of_le (hg.named h hmem).2 hopenings⟩
  new h hmem u hu huid := by
    obtain ⟨t, ht, hid, -⟩ := hback u hu
    exact hg.new h hmem t ht (hid.symm.trans huid)
  pinned h hmem u hu huid := by
    obtain ⟨t, ht, hid, hnext, hpins⟩ := hback u hu
    have htid : t.id = h.session := hid.symm.trans huid
    obtain ⟨hslot, p, hp, hps, hholders⟩ := hg.pinned h hmem t ht htid
    exact ⟨hnext ▸ hslot, p, hpins p hp ⟨h, hmem, htid.symm, hps.symm⟩, hps, hholders⟩

theorem granted_leaveRun {a b : Bridge} {handles : List Handle} (hg : Granted a b handles)
    (id : SessionId) : Granted a (b.leaveRun id) handles := by
  refine granted_before hg (Nat.le_refl _) ?_
  intro u hu
  obtain ⟨t, ht, rfl⟩ := List.mem_map.mp ((leaveRun_sublist b id).subset hu)
  exact ⟨t, ht, by simp, by simp, fun p hp _ => by simpa using hp⟩

theorem granted_enterRun {b c : Bridge} {handles : List Handle} (id : SessionId)
    (hg : Granted (b.enterRun id) c handles) : Granted b c handles where
  once := hg.once
  named := hg.named
  new h hmem u hu huid s hs hsid := by
    have hentered : (if s.id = id then { s with runs := s.runs + 1 } else s) ∈
        (b.enterRun id).sessions := by
      rw [enterRun, update_sessions]
      exact List.mem_map.mpr ⟨s, hs, rfl⟩
    have hnew := hg.new h hmem u hu huid _ hentered (by split <;> exact hsid)
    split at hnew <;> exact hnew
  pinned := hg.pinned

def Grants (b : Bridge) (a : Answer Value) : Prop :=
  ∀ v b', a = some (.ok v, b') → b.Sound → Granted b b' v.handles

theorem outward_grants (b : Bridge) (id : SessionId) (d : Datum) (v : Value) (b' : Bridge)
    (h : b.outward id d = (.ok v, b')) (hb : b.Sound) : Granted b b' v.handles := by
  unfold Bridge.outward at h
  split at h
  · simp at h
  · next s hs =>
    obtain ⟨hmem, rfl⟩ := mem_of_find hs
    rcases ho : s.outward d with ⟨r, s'⟩
    simp only [ho, Prod.mk.injEq] at h
    obtain ⟨rfl, rfl⟩ := h
    obtain ⟨honce, -, hhandles⟩ := Session.outward_handles ho
    have hsid : s'.id = s.id := by
      have hk := (Session.outward_keeps (hb.pins s hmem) d).1.id
      rwa [ho] at hk
    refine ⟨honce, ?_, ?_, ?_⟩
    · intro handle hhandle
      rw [(hhandles handle hhandle).1]
      exact hb.named s hmem
    · intro handle hhandle _ _ _ t ht htid
      obtain ⟨hsession, hslot, -⟩ := hhandles handle hhandle
      obtain rfl := sound_unique hb ht hmem (htid.trans hsession)
      exact hslot
    · intro handle hhandle t ht htid
      obtain ⟨hsession, -, hslot, p, hp, hps, hholders⟩ := hhandles handle hhandle
      rw [update_sessions] at ht
      obtain ⟨u, hu, rfl⟩ := List.mem_map.mp ht
      have huid : u.id = s.id := by
        split at htid
        · next hid => exact hid
        · exact htid.trans hsession
      rw [if_pos huid]
      exact ⟨hslot, p, hp, hps, Nat.le_of_eq hholders.symm⟩

def grantYield : Yield where
  turns _ _ := True
  brings _ b b' r := ∀ v, r = .ok v → Granted b b' v.handles
  refl _ := trivial
  trans _ _ _ _ _ := trivial
  heap _ _ _ := trivial
  inward _ _ _ := trivial
  unpin _ _ _ := trivial
  error _ _ _ v h := by cases h
  out id d hb v hv := outward_grants _ id d v _ (Prod.ext hv rfl) hb
  after ha hab hbc _ h v hv := granted_after ha hab hbc (h v hv)
  left h v hv := granted_leaveRun (granted_enterRun _ (h v hv)) _
  marked h v hv := { h v hv with }

section
variable (host : Host) (fuel : Nat)

omit host fuel in
theorem outward_find {b : Bridge} (hb : b.Sound) {id : SessionId} {s : Session}
    (hs : b.find? id = some s) (d : Datum) {t : Session} (ht : t ∈ (b.outward id d).2.sessions)
    (hid : t.id = id) : t = (s.outward d).2 := by
  obtain ⟨hmem, rfl⟩ := mem_of_find hs
  have hsid := (Session.outward_keeps (hb.pins s hmem) d).1.id
  unfold Bridge.outward at ht
  rw [hs] at ht
  simp only [update_sessions] at ht
  obtain ⟨u, hu, rfl⟩ := List.mem_map.mp ht
  by_cases huid : u.id = s.id
  · rw [if_pos huid]
  · rw [if_neg huid] at hid
    exact absurd hid huid

/-- What a run brings back is the value of what the script left, and at every place of it the handle
means the function at that place. -/
theorem runOutward_resolves (b b' : Bridge) (id : SessionId) (machine : Heap → Machine) (v : Value)
    (hb : b.Sound) (h : runOutward host (fuel + 1) b id machine = some (.ok v, b')) :
    ∃ d b₁ s, Bridge.run host fuel b id machine = some (.ok d, b₁) ∧ b₁.find? id = some s ∧
      Crossing.Unfolds s.heap (fun handle f => handle ∈ v.handles →
        ∀ s' ∈ b'.sessions, s'.id = id → Crossing.resolve s'.id s'.pins handle = .ok f) d v := by
  simp only [runOutward] at h
  split at h
  · simp at h
  · simp at h
  · next d b₁ hrun =>
    have hb₁ := ((runs_lead later_steady host fuel).run b id machine _ b₁ hrun
      (sound_enterRun hb id)).1
    rcases ho : b₁.outward id d with ⟨r, b₂⟩
    simp only [ho, Option.some.injEq, Prod.mk.injEq] at h
    obtain ⟨rfl, rfl⟩ := h
    have hfound : ∃ s, b₁.find? id = some s := by
      cases hs : b₁.find? id with
      | none => simp [Bridge.outward, hs] at ho
      | some s => exact ⟨s, rfl⟩
    obtain ⟨s, hs⟩ := hfound
    obtain ⟨hmem, -⟩ := mem_of_find hs
    refine ⟨d, b₁, s, hrun, hs, ?_⟩
    have hout : s.outward d = (.ok v, (s.outward d).2) := by
      have hr : (s.outward d).1 = .ok v := by
        simp only [Bridge.outward, hs, Prod.mk.injEq] at ho
        exact ho.1
      rw [← hr]
    apply Crossing.unfolds_mono _ (Session.outward_resolves (hb₁.pins s hmem) hout)
    intro handle f hresolves hhandle s' hs' hid
    obtain ⟨t, ht, rfl⟩ := List.mem_map.mp ((leaveRun_sublist b₂ id).subset hs')
    have htid : t.id = id := by simpa using hid
    have hb₂ : b₂ = (b₁.outward id d).2 := by rw [ho]
    rw [less_id, less_pins, outward_find hb₁ hs d (hb₂ ▸ ht) htid]
    exact hresolves hhandle

theorem query_grants (b : Bridge) (elsewhere : Handle → Bool) (q : Query) :
    Grants b (q.run host fuel elsewhere b) := by
  intro v b' h hb
  have hwalked := Walk.query_walked (grantYield.walked host fuel) elsewhere b q hb (fun _ => hb)
    fun _ _ => trivial
  obtain ⟨-, -, hbrings, hclosed⟩ := hwalked.2 _ h
  cases hs : b.session with
  | none =>
    obtain ⟨e, he⟩ := hclosed hs
    cases he
  | some s => exact (hbrings s hs).2 v rfl

end

theorem compile_later (b : Bridge) (source chunk : String) (hb : b.Sound) :
    (b.compile source chunk).2.Sound ∧ Later b (b.compile source chunk).2 := by
  unfold compile
  split
  · exact ⟨hb, later_refl b⟩
  · next s hs =>
    split
    · exact ⟨hb, later_refl b⟩
    · next f heap _ =>
      have hsound := hb.pins s (mem_open hs)
      have hpin := Session.pin_keeps (s := { s with heap }) ⟨hsound.once, hsound.given⟩ f
      have hheap : s.Keeps { s with heap } := { s.keeps_refl with }
      have hkeeps := Session.keeps_trans hheap hpin.1
      refine later_each hb (fun _ => (Session.pin { s with heap } f).2) (fun t => t) rfl rfl rfl rfl ?_
        (List.map_id' _).symm ?_ fun t ht => ⟨t.keeps_refl, hb.pins t (List.mem_append_right _ ht)⟩
      · rw [hs]
        rfl
      · intro t ht
        obtain rfl := Option.some.inj (hs.symm.trans ht)
        exact ⟨hkeeps, hpin.2⟩

theorem compile_grants (b b' : Bridge) (source chunk : String) (handle : Handle) (hb : b.Sound)
    (h : b.compile source chunk = (.ok handle, b')) : Granted b b' [handle] := by
  have hlater := compile_later b source chunk hb
  rw [h] at hlater
  unfold compile at h
  split at h
  · simp at h
  · next s hs =>
    split at h
    · simp at h
    · next f heap _ =>
      obtain ⟨rfl, rfl⟩ : Handle.mk s.id s.nextSlot = handle ∧ _ = b' := by
        simpa [Session.pin] using h
      have hmem := mem_open hs
      refine ⟨List.nodup_singleton _, ?_, ?_, ?_⟩
      · intro h hh
        obtain rfl := List.mem_singleton.mp hh
        exact hb.named s hmem
      · intro h hh _ _ _ t ht htid
        obtain rfl := List.mem_singleton.mp hh
        obtain rfl := sound_unique hb ht hmem htid
        exact Nat.le_refl _
      · intro h hh t ht htid
        obtain rfl := List.mem_singleton.mp hh
        have hopen := sound_unique hlater.1 ht (mem_open rfl) htid
        rw [hopen]
        exact ⟨Nat.lt_succ_self _, ⟨s.nextSlot, f, 1⟩, by simp, rfl, Nat.le_refl _⟩

theorem compile_resolves (b b' : Bridge) (source chunk : String) (handle : Handle) (hb : b.Sound)
    (h : b.compile source chunk = (.ok handle, b')) :
    ∃ s s' f heap, b.session = some s ∧ s.heap.load source.toUTF8 chunk = .ok (f, heap) ∧
      b'.session = some s' ∧ Crossing.resolve s'.id s'.pins handle = .ok f := by
  unfold compile at h
  split at h
  · simp at h
  · next s hs =>
    split at h
    · simp at h
    · next f heap hload =>
      obtain ⟨rfl, rfl⟩ : Handle.mk s.id s.nextSlot = handle ∧ _ = b' := by
        simpa [Session.pin] using h
      have hold := hb.pins s (mem_open hs)
      have hsound := (Session.pin_keeps (s := { s with heap }) ⟨hold.once, hold.given⟩ f).2
      refine ⟨s, _, f, heap, hs, hload, rfl, ?_⟩
      exact (Session.resolve_iff hsound _ f).mpr
        ⟨rfl, ⟨s.nextSlot, f, 1⟩, List.mem_append_right _ List.mem_cons_self, rfl, rfl⟩

@[simp] theorem drop_sessions (b : Bridge) (handle : Handle) :
    (b.drop handle).sessions = b.sessions.map (·.drop handle) :=
  update_own b handle.session _ fun s hid => s.drop_foreign handle (Ne.symm hid)

theorem sound_drop {b : Bridge} (hb : b.Sound) (handle : Handle) : (b.drop handle).Sound :=
  sound_update hb handle.session _ (fun s => s.drop_id handle)
    (fun s => s.drop_runs handle) fun _ hs => Session.drop_sound hs handle

@[simp] theorem retain_sessions (b : Bridge) (handle : Handle) :
    (b.retain handle).sessions = b.sessions.map (·.retain handle) :=
  update_own b handle.session _ fun s hid => s.retain_foreign handle (Ne.symm hid)

theorem sound_retain {b : Bridge} (hb : b.Sound) (handle : Handle) : (b.retain handle).Sound :=
  sound_update hb handle.session _ (fun s => s.retain_id handle)
    (fun s => s.retain_runs handle) fun _ hs => Session.retain_sound hs handle

def Unknown (b c : Bridge) (handle : Handle) : Prop :=
  -- the slot of a handle was given out later than anything a bridge knew
  ∀ u ∈ c.sessions, u.id = handle.session → ∀ s ∈ b.sessions, s.id = handle.session →
    s.nextSlot ≤ handle.slot

theorem later_drop {b c : Bridge} (h : Later b c) (handle : Handle) (hnew : Unknown b c handle) :
    Later b (c.drop handle) := by
  have hids : (c.drop handle).sessions.map (·.id) = c.sessions.map (·.id) :=
    update_ids c handle.session _ fun s => s.drop_id handle
  refine ⟨h.id, h.config, h.busy, h.openings, ?_, ?_, ?_⟩
  · intro t ht
    rw [drop_sessions] at ht
    obtain ⟨u, hu, rfl⟩ := List.mem_map.mp ht
    rcases h.kept u hu with ⟨s, hs, hk⟩ | ⟨hopening, hnone⟩
    · have hother : ∀ p : Pin, p.slot < s.nextSlot →
          (p ∈ (u.drop handle).pins ↔ p ∈ u.pins) := by
        intro p hp
        apply u.drop_other handle p
        intro hsession
        have := hnew u hu hsession.symm s hs (hk.id.symm.trans hsession.symm)
        omega
      refine .inl ⟨s, hs, by simp [hk.id], by simp [hk.runs], by simp [hk.next],
        by simp [hk.releases], ?_, ?_⟩
      · intro heq p hp
        rw [hother p hp]
        exact hk.pins (by simpa using heq) p hp
      · intro hlt p hp
        by_contra hslot
        have hmem := (hother p (by omega)).mp hp
        exact hslot (hk.cleared (by simpa using hlt) p hmem)
    · exact .inr ⟨by simpa using hopening, by simpa using hnone⟩
  · intro s hs hruns
    obtain ⟨t, ht, hid⟩ := h.running s hs hruns
    obtain ⟨u, hu, heq⟩ := List.mem_map.mp (hids ▸ List.mem_map.mpr ⟨t, ht, rfl⟩)
    exact ⟨u, hu, heq.trans hid⟩
  · intro t ht
    obtain ⟨u, hu, rfl⟩ := Option.map_eq_some_iff.mp ht
    have hid : (if u.id = handle.session then u.drop handle else u).id = u.id := by
      split <;> simp
    rw [hid]
    exact h.current u hu

theorem granted_drop {b c : Bridge} {handles : List Handle} (hg : Granted b c handles)
    (handle : Handle) (hother : handle ∉ handles) : Granted b (c.drop handle) handles := by
  refine granted_before hg (Nat.le_refl _) ?_
  intro u hu
  rw [drop_sessions] at hu
  obtain ⟨t, ht, rfl⟩ := List.mem_map.mp hu
  refine ⟨t, ht, by simp, by simp, ?_⟩
  rintro p hp ⟨h, hmem, hsession, hslot⟩
  rw [t.drop_other handle p]
  · exact hp
  · intro heq hps
    obtain rfl : h = handle := by
      cases h
      cases handle
      simp_all
    exact hother hmem

theorem dropAll_granted {b c : Bridge} {handles : List Handle} (hc : c.Sound) (h : Later b c)
    (hg : Granted b c handles) (dropped : List Handle) (hnew : ∀ h ∈ dropped, Unknown b c h)
    (hother : ∀ h ∈ dropped, h ∉ handles) :
    (c.dropAll dropped).Sound ∧ Later b (c.dropAll dropped) ∧ Granted b (c.dropAll dropped) handles := by
  induction dropped generalizing c with
  | nil => exact ⟨hc, h, hg⟩
  | cons d rest ih =>
    have hstep : ∀ h' ∈ rest, Unknown b (c.drop d) h' := by
      intro h' hmem u hu huid
      rw [drop_sessions] at hu
      obtain ⟨t, ht, rfl⟩ := List.mem_map.mp hu
      exact hnew h' (List.mem_cons_of_mem _ hmem) t ht ((t.drop_id d).symm.trans huid)
    exact ih (sound_drop hc d) (later_drop h d (hnew d List.mem_cons_self))
      (granted_drop hg d (hother d List.mem_cons_self)) hstep
      fun h' hmem => hother h' (List.mem_cons_of_mem _ hmem)

/-- Some of the handles that came with an answer. -/
theorem granted_some {b c : Bridge} {handles some : List Handle} (hg : Granted b c handles)
    (hsub : some.Subperm handles) : Granted b c some := by
  have hsubset := hsub.subset
  obtain ⟨l, hperm, hl⟩ := hsub
  exact ⟨hperm.nodup_iff.mp (hg.once.sublist hl), fun h hmem => hg.named h (hsubset hmem),
    fun h hmem => hg.new h (hsubset hmem), fun h hmem => hg.pinned h (hsubset hmem)⟩

def treeHandles {ε : Type} : Except ε (Option UiNode) → List Handle
  | .ok (some n) => n.handles
  | _ => []

theorem treeOf_granted {b c : Bridge} {v : Value} (hc : c.Sound) (h : Later b c)
    (hg : Granted b c v.handles) : (c.treeOf v).2.Sound ∧ Later b (c.treeOf v).2 ∧
      Granted b (c.treeOf v).2 (treeHandles (c.treeOf v).1) := by
  have hkept : (treeHandles (UiNode.ofValue v)).Subperm v.handles := by
    cases hn : UiNode.ofValue v with
    | error e => exact List.nil_subperm
    | ok n =>
      cases n with
      | none => exact List.nil_subperm
      | some n => exact UiNode.ofValue_handles v n hn
  have hdrop := dropAll_granted hc h (granted_some hg hkept)
    (v.handles.filter fun handle => !(treeHandles (UiNode.ofValue v)).contains handle)
    (fun d hd => hg.new d (List.mem_of_mem_filter hd))
    (fun d hd => by simpa using (List.mem_filter.mp hd).2)
  unfold treeOf
  cases hn : UiNode.ofValue v with
  | error e =>
    rw [hn] at hdrop
    exact hdrop
  | ok n =>
    rw [hn] at hdrop
    cases n with
    | none => exact hdrop
    | some n => exact hdrop

theorem evaluateUi_granted (host : Host) (fuel : Nat) (b b' : Bridge) (source chunk : String)
    (r : Except ScriptError (Option UiNode)) (hb : b.Sound)
    (h : b.evaluateUi host fuel source chunk = some (r, b')) :
    b'.Sound ∧ Later b b' ∧ Granted b b' (treeHandles r) := by
  have hrelease := later_release hb
  change (b.release.2.install host fuel).next (fun b _ =>
    (b.executeNamed host fuel source chunk).next fun b v => some (b.treeOf v)) = some (r, b') at h
  rcases next_some h with ⟨e, hi, rfl⟩ | ⟨_, b₁, hi, h⟩
  · obtain ⟨hb', hlater⟩ := install_leads later_steady host fuel _ _ b' hi hrelease.1
    exact ⟨hb', later_trans hb hrelease.2 hlater, granted_nil _ _⟩
  · obtain ⟨hb₁, hinstall⟩ := install_leads later_steady host fuel _ _ b₁ hi hrelease.1
    have hready := later_trans hb hrelease.2 hinstall
    rcases next_some h with ⟨e, hx, rfl⟩ | ⟨v, b₂, hx, h⟩
    · obtain ⟨hb', hrun⟩ := (runs_lead later_steady host fuel).query (fun _ => false) b₁
        (.execute source chunk) _ b' hx hb₁
      exact ⟨hb', later_trans hb hready hrun, granted_nil _ _⟩
    · obtain ⟨hb₂, hrun⟩ := (runs_lead later_steady host fuel).query (fun _ => false) b₁
        (.execute source chunk) _ b₂ hx hb₁
      have hg := query_grants host fuel b₁ (fun _ => false) (.execute source chunk) v b₂ hx hb₁
      have htree := treeOf_granted hb₂ (later_trans hb hready hrun) (granted_after hb hready hrun hg)
      rw [Option.some.inj h] at htree
      exact htree

/-- A run of a user-interface script: everything from before is unpinned, and the handles in its tree
are new. -/
theorem runUiNamed_granted (host : Host) (fuel : Nat) (b b' : Bridge) (source chunk : String)
    (r : Except Diagnostic (Option UiNode)) (hb : b.Sound)
    (h : b.runUiNamed host fuel source chunk = some (r, b')) :
    b'.Sound ∧ Later b b' ∧ Granted b b' (treeHandles r) := by
  obtain ⟨⟨r₁, b₁⟩, heval, heq⟩ := Option.map_eq_some_iff.mp h
  obtain ⟨rfl, rfl⟩ := Prod.mk.inj heq
  obtain ⟨hb₁, hlater, hg⟩ := evaluateUi_granted host fuel b b₁ source chunk r₁ hb heval
  refine ⟨hb₁, hlater, ?_⟩
  cases r₁ with
  | error e => exact granted_nil _ _
  | ok n => cases n <;> exact hg

end ScriptHost.Bridge
