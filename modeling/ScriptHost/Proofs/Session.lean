import ScriptHost.Session
import ScriptHost.Proofs.Crossing.Handles
import ScriptHost.Proofs.Crossing.Unfolding

/-!
# Sessions over time

Slots are given out once.  So a session may get new pins and lose all it has in a release, but between
two releases the pins that are there stay what they are, and after one none of the old slots is pinned
again.
-/

set_option autoImplicit false

namespace ScriptHost.Session
open Lua

structure Sound (s : Session) : Prop where
  once : (s.pins.map (·.slot)).Nodup
  given : ∀ p ∈ s.pins, p.slot < s.nextSlot

theorem start_sound (id : SessionId) (config : Config) : (Session.start id config).Sound where
  once := List.nodup_nil
  given _ hp := absurd hp List.not_mem_nil

/-- What a script does to a session that is still there when it is done. -/
structure Keeps (s s' : Session) : Prop where
  id : s'.id = s.id
  runs : s'.runs = s.runs
  next : s.nextSlot ≤ s'.nextSlot
  releases : s.releases ≤ s'.releases
  pins : s'.releases = s.releases → ∀ p : Pin, p.slot < s.nextSlot → (p ∈ s'.pins ↔ p ∈ s.pins)
  cleared : s.releases < s'.releases → ∀ p ∈ s'.pins, s.nextSlot ≤ p.slot

theorem keeps_refl (s : Session) : Keeps s s where
  id := rfl
  runs := rfl
  next := Nat.le_refl _
  releases := Nat.le_refl _
  pins _ _ _ := Iff.rfl
  cleared h := absurd h (Nat.lt_irrefl _)

theorem keeps_trans {s s' s'' : Session} (h : Keeps s s') (h' : Keeps s' s'') : Keeps s s'' where
  id := h'.id.trans h.id
  runs := h'.runs.trans h.runs
  next := Nat.le_trans h.next h'.next
  releases := Nat.le_trans h.releases h'.releases
  pins heq p hp := by
    have h1 := h.releases
    have h2 := h'.releases
    have hn := h.next
    rw [h'.pins (by omega) p (by omega), h.pins (by omega) p hp]
  cleared hlt p hp := by
    have hn := h.next
    by_cases hlater : s'.releases < s''.releases
    · have := h'.cleared hlater p hp
      omega
    · have h2 := h'.releases
      by_contra hslot
      have hmem := (h'.pins (by omega) p (by omega)).mp hp
      exact hslot (h.cleared (by omega) p hmem)

theorem find_pin {pins : List Pin} (hp : (pins.map (·.slot)).Nodup) {p : Pin} (hm : p ∈ pins) :
    pins.find? (·.slot == p.slot) = some p := by
  induction pins with
  | nil => simp at hm
  | cons q rest ih =>
    obtain ⟨hq, hrest⟩ := List.nodup_cons.mp hp
    rcases List.mem_cons.mp hm with rfl | hm
    · simp
    · have hne : q.slot ≠ p.slot := fun h => hq (List.mem_map.mpr ⟨p, hm, h.symm⟩)
      rw [List.find?_cons_of_neg (by simpa using hne)]
      exact ih hrest hm

/-- A handle resolves to the function that is pinned in its slot, in its own session only. -/
theorem resolve_iff {s : Session} (hs : s.Sound) (handle : Handle) (f : Datum) :
    Crossing.resolve s.id s.pins handle = .ok f ↔
      handle.session = s.id ∧ ∃ p ∈ s.pins, p.slot = handle.slot ∧ p.function = f := by
  unfold Crossing.resolve
  by_cases hid : handle.session = s.id
  · simp only [hid, true_and, if_true]
    constructor
    · intro h
      split at h
      · next p hp =>
        have hslot := List.find?_some hp
        exact ⟨p, List.mem_of_find?_eq_some hp, by simpa using hslot, Except.ok.inj h⟩
      · simp at h
    · rintro ⟨p, hp, hslot, rfl⟩
      rw [← hslot, find_pin hs.once hp]
  · simp [hid]

theorem resolve_error (id : SessionId) (pins : List Pin) (handle : Handle) (e : ScriptError)
    (h : Crossing.resolve id pins handle = .error e) : e.kind = .marshal := by
  unfold Crossing.resolve at h
  split at h
  · split at h
    · simp at h
    · obtain rfl := Except.error.inj h
      rfl
  · obtain rfl := Except.error.inj h
    rfl

theorem addAll_slots (s : Crossing.Issue) (fs : List Datum) :
    (s.addAll fs).functions.map (·.1) =
      (List.range' s.next fs.length).reverse ++ s.functions.map (·.1) := by
  induction fs generalizing s with
  | nil => rfl
  | cons f fs ih =>
    have h := ih (s.add f).2
    simp only [Crossing.Issue.addAll, List.foldl_cons] at h ⊢
    rw [h]
    simp [Crossing.Issue.add, List.range'_succ]

def issuing (s : Session) : Crossing.Issue := ⟨s.id, s.nextSlot, []⟩

def pinsOf (v : Value) (functions : List (Nat × Datum)) : List Pin :=
  -- the pins of those functions whose handles made it into a value
  ((functions.filter fun p => (slotsOf v).contains p.1).map fun p => ⟨p.1, p.2, 1⟩).reverse

theorem pinsOf_slots (s : Session) (v : Value) (fs : List Datum) :
    ((pinsOf v (s.issuing.addAll fs).functions).map (·.slot)).Sublist
      (List.range' s.nextSlot fs.length) := by
  have hall : (List.range' s.nextSlot fs.length).reverse =
      (s.issuing.addAll fs).functions.map (·.1) := by
    rw [addAll_slots]
    simp [issuing]
  rw [pinsOf, List.map_reverse, List.map_map, ← List.reverse_reverse (List.range' _ _), hall]
  exact List.reverse_sublist.mpr (List.filter_sublist.map _)

theorem pinsOf_mem (v : Value) (functions : List (Nat × Datum)) (p : Pin) :
    p ∈ pinsOf v functions ↔
      (∃ handle ∈ v.handles, handle.slot = p.slot) ∧ (p.slot, p.function) ∈ functions ∧
        p.holders = 1 := by
  simp only [pinsOf, List.mem_reverse, List.mem_map, List.mem_filter, slotsOf, List.contains_iff_mem]
  constructor
  · rintro ⟨q, ⟨hq, handle, hhandle, hslot⟩, rfl⟩
    exact ⟨⟨handle, hhandle, hslot⟩, hq, rfl⟩
  · rintro ⟨⟨handle, hhandle, hslot⟩, hp, hholders⟩
    exact ⟨(p.slot, p.function), ⟨hp, handle, hhandle, hslot⟩, by rw [← hholders]⟩

/-- Making a host value uses up slots; if it succeeds, what is in the value is pinned. -/
theorem outward_cases (s : Session) (d : Datum) :
    ∃ fs, (∃ e, s.outward d = (.error e, { s with nextSlot := s.nextSlot + fs.length })) ∨
      ∃ v, s.outward d = (.ok v, { s with
          nextSlot := s.nextSlot + fs.length
          pins := s.pins ++ pinsOf v (s.issuing.addAll fs).functions }) ∧
        Crossing.outward s.heap d s.issuing = (.ok v, s.issuing.addAll fs) ∧
        v.handles.Subperm (s.issuing.upcoming fs.length) := by
  obtain ⟨fs, hfs⟩ := Crossing.outwardWithin_adds s.heap (s.heap.tables.size + 1) [] d s.issuing
  have hnext : (s.issuing.addAll fs).next = s.nextSlot + fs.length := Crossing.addAll_next _ fs
  refine ⟨fs, ?_⟩
  rcases hv : Crossing.outward s.heap d s.issuing with ⟨r, issue⟩
  obtain rfl : issue = s.issuing.addAll fs := by
    rw [← hfs, ← Crossing.outward, hv]
  have hout : Crossing.outward s.heap d ⟨s.id, s.nextSlot, []⟩ = (r, s.issuing.addAll fs) := hv
  cases r with
  | error e => exact .inl ⟨e, by simp only [outward, hout, hnext]⟩
  | ok v =>
    have hsession : s.outward d = (.ok v, { s with
        nextSlot := s.nextSlot + fs.length
        pins := s.pins ++ pinsOf v (s.issuing.addAll fs).functions }) := by
      simp only [outward, hout, hnext]
      rfl
    refine .inr ⟨v, hsession, rfl, ?_⟩
    obtain ⟨gs, hgs, hsub⟩ := Crossing.outwardWithin_hands s.heap _ [] d s.issuing v _ hv
    have hlen : gs.length = fs.length := by
      have h := Crossing.addAll_next s.issuing gs
      rw [← hgs, Crossing.addAll_next] at h
      omega
    exact hlen ▸ hsub

/-- Pins in new slots disturb no one. -/
theorem append_keeps {s : Session} (hs : s.Sound) (n : Nat) (pins : List Pin)
    (hp : (pins.map (·.slot)).Sublist (List.range' s.nextSlot n)) :
    Keeps s { s with nextSlot := s.nextSlot + n, pins := s.pins ++ pins } ∧
      Sound { s with nextSlot := s.nextSlot + n, pins := s.pins ++ pins } := by
  have hnew : ∀ p ∈ pins, s.nextSlot ≤ p.slot ∧ p.slot < s.nextSlot + n := by
    intro p hmem
    have hslot := hp.subset (List.mem_map.mpr ⟨p, hmem, rfl⟩)
    rw [List.mem_range'_1] at hslot
    exact hslot
  constructor
  · refine ⟨rfl, rfl, Nat.le_add_right _ _, Nat.le_refl _, ?_, fun h => absurd h (Nat.lt_irrefl _)⟩
    intro _ p hslot
    simp only [List.mem_append]
    constructor
    · rintro (hmem | hmem)
      · exact hmem
      · have := hnew p hmem
        omega
    · exact .inl
  · constructor
    · rw [List.map_append]
      refine List.Nodup.append hs.once (List.Nodup.sublist hp List.nodup_range') ?_
      intro slot hold hmem
      obtain ⟨p, hpin, rfl⟩ := List.mem_map.mp hold
      obtain ⟨q, hq, hslot⟩ := List.mem_map.mp hmem
      have h1 := hs.given p hpin
      have h2 := hnew q hq
      omega
    · intro p hmem
      rcases List.mem_append.mp hmem with hmem | hmem
      · have := hs.given p hmem
        simp only
        omega
      · exact (hnew p hmem).2

theorem outward_keeps {s : Session} (hs : s.Sound) (d : Datum) :
    Keeps s (s.outward d).2 ∧ (s.outward d).2.Sound := by
  obtain ⟨fs, ⟨e, he⟩ | ⟨v, hv, -, -⟩⟩ := outward_cases s d
  · rw [he]
    simpa using append_keeps hs fs.length [] (by simp)
  · rw [hv]
    exact append_keeps hs fs.length _ (pinsOf_slots s v fs)

/-- The handles of a value that was just made: each once, each of a new slot with one holder. -/
theorem outward_handles {s s' : Session} {d : Datum} {v : Value} (h : s.outward d = (.ok v, s')) :
    v.handles.Nodup ∧ s'.releases = s.releases ∧ ∀ handle ∈ v.handles,
      handle.session = s.id ∧ s.nextSlot ≤ handle.slot ∧ handle.slot < s'.nextSlot ∧
        ∃ p ∈ s'.pins, p.slot = handle.slot ∧ p.holders = 1 := by
  obtain ⟨fs, ⟨e, he⟩ | ⟨v', hv, -, hsub⟩⟩ := outward_cases s d
  · rw [he] at h
    simp at h
  · rw [hv] at h
    obtain ⟨rfl, rfl⟩ : v' = v ∧ _ = s' := by simpa using h
    have hsubset := hsub.subset
    obtain ⟨given, hperm, hgiven⟩ := hsub
    have hnodup := hperm.nodup_iff.mp ((Crossing.upcoming_nodup _ _).sublist hgiven)
    refine ⟨hnodup, rfl, ?_⟩
    intro handle hhandle
    obtain ⟨slot, hslot, rfl⟩ := List.mem_map.mp (hsubset hhandle)
    have hbound : s.nextSlot ≤ slot ∧ slot < s.nextSlot + fs.length := List.mem_range'_1.mp hslot
    refine ⟨rfl, hbound.1, hbound.2, ?_⟩
    have hmem : slot ∈ (s.issuing.addAll fs).functions.map (·.1) := by
      rw [addAll_slots, List.mem_append, List.mem_reverse]
      exact .inl hslot
    obtain ⟨⟨slot', f⟩, hf, rfl⟩ := List.mem_map.mp hmem
    refine ⟨⟨slot', f, 1⟩, List.mem_append_right _ ?_, rfl, rfl⟩
    exact (pinsOf_mem _ _ _).mpr ⟨⟨_, hhandle, rfl⟩, hf, rfl⟩

/-- Every handle of a value that was just made resolves to the function that it stands for. -/
theorem outward_resolves {s s' : Session} (hs : s.Sound) {d : Datum} {v : Value}
    (h : s.outward d = (.ok v, s')) :
    Crossing.Unfolds s.heap
      (fun handle f => handle ∈ v.handles → Crossing.resolve s'.id s'.pins handle = .ok f) d v := by
  have hsound := (outward_keeps hs d).2
  obtain ⟨fs, ⟨e, he⟩ | ⟨v', hv, hout, -⟩⟩ := outward_cases s d
  · rw [he] at h
    simp at h
  · rw [hv] at h hsound
    obtain ⟨rfl, rfl⟩ : v' = v ∧ _ = s' := by simpa using h
    have hu := Crossing.outwardWithin_unfolds _ _ [] d _ _ v' hout
    apply Crossing.unfolds_mono _ hu
    intro handle f hissued hhandle
    rw [resolve_iff hsound]
    refine ⟨hissued.1, ⟨handle.slot, f, 1⟩, List.mem_append_right _ ?_, rfl, rfl⟩
    exact (pinsOf_mem _ _ _).mpr ⟨⟨handle, hhandle, rfl⟩, hissued.2.2, rfl⟩

theorem pin_keeps {s : Session} (hs : s.Sound) (f : Datum) :
    Keeps s (s.pin f).2 ∧ (s.pin f).2.Sound :=
  append_keeps hs 1 [⟨s.nextSlot, f, 1⟩] (by simp)

theorem release_keeps (s : Session) : Keeps s s.release.2 ∧ s.release.2.Sound := by
  refine ⟨⟨rfl, rfl, Nat.le_refl _, Nat.le_succ _, ?_, by simp [release]⟩, by simp [release],
    by simp [release]⟩
  intro h
  simp [release] at h

/-- What stays when everything from a slot on is unpinned. -/
theorem dropFrom_sound {s : Session} (hs : s.Sound) (slot : Nat) : (s.dropFrom slot).Sound where
  once := hs.once.sublist (List.filter_sublist.map _)
  given p hp := hs.given p (List.mem_of_mem_filter hp)

/-- Unpinning what was pinned meanwhile disturbs no one who was there before. -/
theorem dropFrom_keeps {s s' : Session} (hk : Keeps s s') : Keeps s (s'.dropFrom s.nextSlot) where
  id := hk.id
  runs := hk.runs
  next := hk.next
  releases := hk.releases
  pins heq p hp := by
    rw [← hk.pins heq p hp]
    simp [dropFrom, hp]
  cleared hlt p hp := hk.cleared hlt p (List.mem_of_mem_filter hp)

def letGo (slot : Nat) (p : Pin) : Option Pin :=
  if p.slot = slot then
    if p.holders ≤ 1 then none else some { p with holders := p.holders - 1 }
  else some p

def takeUp (slot : Nat) (p : Pin) : Pin :=
  if p.slot = slot then { p with holders := p.holders + 1 } else p

theorem letGo_slot {slot : Nat} {p q : Pin} (h : letGo slot p = some q) : q.slot = p.slot := by
  unfold letGo at h
  split at h
  · split at h
    · simp at h
    · obtain rfl := Option.some.inj h
      rfl
  · obtain rfl := Option.some.inj h
    rfl

@[simp] theorem takeUp_slot (slot : Nat) (p : Pin) : (takeUp slot p).slot = p.slot := by
  unfold takeUp
  split <;> rfl

@[simp] theorem takeUp_function (slot : Nat) (p : Pin) : (takeUp slot p).function = p.function := by
  unfold takeUp
  split <;> rfl

theorem drop_pins (s : Session) (handle : Handle) (hid : handle.session = s.id) :
    (s.drop handle).pins = s.pins.filterMap (letGo handle.slot) := by
  rw [drop, if_pos hid]
  rfl

theorem drop_foreign (s : Session) (handle : Handle) (hid : handle.session ≠ s.id) :
    s.drop handle = s := by
  rw [drop, if_neg hid]

@[simp] theorem drop_id (s : Session) (handle : Handle) : (s.drop handle).id = s.id := by
  unfold drop
  split <;> rfl

@[simp] theorem drop_runs (s : Session) (handle : Handle) : (s.drop handle).runs = s.runs := by
  unfold drop
  split <;> rfl

@[simp] theorem drop_nextSlot (s : Session) (handle : Handle) : (s.drop handle).nextSlot = s.nextSlot := by
  unfold drop
  split <;> rfl

@[simp] theorem drop_releases (s : Session) (handle : Handle) : (s.drop handle).releases = s.releases := by
  unfold drop
  split <;> rfl

theorem letGo_slots (slot : Nat) (pins : List Pin) :
    ((pins.filterMap (letGo slot)).map (·.slot)).Sublist (pins.map (·.slot)) := by
  induction pins with
  | nil => exact .slnil
  | cons p rest ih =>
    rw [List.filterMap_cons]
    split
    · exact ih.cons _
    · next q hq =>
      rw [List.map_cons, List.map_cons, letGo_slot hq]
      exact ih.cons_cons _

theorem drop_sound {s : Session} (hs : s.Sound) (handle : Handle) : (s.drop handle).Sound := by
  by_cases hid : handle.session = s.id
  · have hsub : ((s.drop handle).pins.map (·.slot)).Sublist (s.pins.map (·.slot)) := by
      rw [drop_pins s handle hid]
      exact letGo_slots _ _
    refine ⟨hs.once.sublist hsub, fun p hp => ?_⟩
    obtain ⟨q, hq, hslot⟩ := List.mem_map.mp (hsub.subset (List.mem_map.mpr ⟨p, hp, rfl⟩))
    rw [← hslot, drop_nextSlot]
    exact hs.given q hq
  · rw [drop_foreign s handle hid]
    exact hs

/-- A holder who lets go disturbs no other slot. -/
theorem drop_other (s : Session) (handle : Handle) (p : Pin)
    (h : handle.session = s.id → p.slot ≠ handle.slot) : p ∈ (s.drop handle).pins ↔ p ∈ s.pins := by
  by_cases hid : handle.session = s.id
  · have hne := h hid
    rw [drop_pins s handle hid, List.mem_filterMap]
    constructor
    · rintro ⟨q, hq, hgo⟩
      have hslot := letGo_slot hgo
      rw [letGo, if_neg (hslot ▸ hne)] at hgo
      exact Option.some.inj hgo ▸ hq
    · intro hp
      exact ⟨p, hp, by rw [letGo, if_neg hne]⟩
  · rw [drop_foreign s handle hid]

/-- A slot with more than one holder stays pinned for the others. -/
theorem drop_shared (s : Session) (handle : Handle) (hid : handle.session = s.id) (p : Pin)
    (hp : p ∈ s.pins) (hslot : p.slot = handle.slot) (hholders : 2 ≤ p.holders) :
    { p with holders := p.holders - 1 } ∈ (s.drop handle).pins := by
  rw [drop_pins s handle hid, List.mem_filterMap]
  exact ⟨p, hp, by rw [letGo, if_pos hslot, if_neg (by omega)]⟩

theorem letGo_others {slot : Nat} {pins : List Pin} (h : ∀ p ∈ pins, p.slot ≠ slot) :
    pins.filterMap (letGo slot) = pins := by
  rw [List.filterMap_congr (g := some), List.filterMap_some]
  intro p hp
  rw [letGo, if_neg (h p hp)]

theorem drop_absent (s : Session) (handle : Handle) (h : ∀ p ∈ s.pins, p.slot ≠ handle.slot) :
    s.drop handle = s := by
  by_cases hid : handle.session = s.id
  · have hpins : s.pins.filterMap (letGo handle.slot) = s.pins := letGo_others h
    rw [drop, if_pos hid]
    change { s with pins := s.pins.filterMap (letGo handle.slot) } = s
    rw [hpins]
  · exact drop_foreign s handle hid

@[simp] theorem retain_id (s : Session) (handle : Handle) : (s.retain handle).id = s.id := by
  unfold retain
  split <;> rfl

@[simp] theorem retain_runs (s : Session) (handle : Handle) : (s.retain handle).runs = s.runs := by
  unfold retain
  split <;> rfl

@[simp] theorem retain_nextSlot (s : Session) (handle : Handle) : (s.retain handle).nextSlot = s.nextSlot := by
  unfold retain
  split <;> rfl

@[simp] theorem retain_releases (s : Session) (handle : Handle) : (s.retain handle).releases = s.releases := by
  unfold retain
  split <;> rfl

theorem retain_pins (s : Session) (handle : Handle) (hid : handle.session = s.id) :
    (s.retain handle).pins = s.pins.map (takeUp handle.slot) := by
  rw [retain, if_pos hid]
  rfl

theorem retain_foreign (s : Session) (handle : Handle) (hid : handle.session ≠ s.id) :
    s.retain handle = s := by
  rw [retain, if_neg hid]

theorem retain_sound {s : Session} (hs : s.Sound) (handle : Handle) : (s.retain handle).Sound := by
  by_cases hid : handle.session = s.id
  · have hslots : (s.retain handle).pins.map (·.slot) = s.pins.map (·.slot) := by
      rw [retain_pins s handle hid, List.map_map]
      exact List.map_congr_left fun p _ => takeUp_slot _ p
    refine ⟨hslots ▸ hs.once, fun p hp => ?_⟩
    obtain ⟨q, hq, hslot⟩ := List.mem_map.mp (hslots ▸ List.mem_map.mpr ⟨p, hp, rfl⟩)
    rw [← hslot, retain_nextSlot]
    exact hs.given q hq
  · rw [retain_foreign s handle hid]
    exact hs

/-- Letting go of the only holders of new pins leaves the old ones. -/
theorem dropAll_new {s : Session} (hs : s.Sound) (old new : List Pin) (handles : List Handle)
    (hnamed : ∀ h ∈ handles, h.session = s.id) (hpins : s.pins.Perm (old ++ new))
    (hslots : (new.map (·.slot)).Perm (handles.map (·.slot))) (hone : ∀ p ∈ new, p.holders = 1) :
    (s.dropAll handles).pins.Perm old := by
  induction handles generalizing s new with
  | nil =>
    obtain rfl : new = [] := by simpa using hslots
    simpa [dropAll] using hpins
  | cons h rest ih =>
    have hmem : h.slot ∈ new.map (·.slot) := hslots.mem_iff.mpr (by simp)
    obtain ⟨p, hp, hslot⟩ := List.mem_map.mp hmem
    obtain ⟨before, after, rfl⟩ := List.append_of_mem hp
    have hmiddle : (before ++ p :: after).Perm (p :: (before ++ after)) := List.perm_middle
    have hall : s.pins.Perm (p :: (old ++ (before ++ after))) :=
      (hpins.trans (hmiddle.append_left old)).trans List.perm_middle
    have honce : (p.slot :: (old ++ (before ++ after)).map (·.slot)).Nodup := by
      have h := (hall.map (·.slot)).nodup_iff.mp hs.once
      simpa using h
    have hothers : ∀ q ∈ old ++ (before ++ after), q.slot ≠ h.slot := by
      intro q hq heq
      exact (List.nodup_cons.mp honce).1 (List.mem_map.mpr ⟨q, hq, heq.trans hslot.symm⟩)
    have hgone : letGo h.slot p = none := by
      rw [letGo, if_pos hslot, if_pos (Nat.le_of_eq (hone p hp))]
    have hdropped : (s.drop h).pins.Perm (old ++ (before ++ after)) := by
      rw [drop_pins s h (hnamed h List.mem_cons_self)]
      have hperm := hall.filterMap (letGo h.slot)
      rwa [List.filterMap_cons_none hgone, letGo_others hothers] at hperm
    have hrest : ((before ++ after).map (·.slot)).Perm (rest.map (·.slot)) := by
      have hperm := (hmiddle.map (·.slot)).symm.trans hslots
      rw [List.map_cons, List.map_cons, hslot] at hperm
      exact hperm.cons_inv
    exact ih (drop_sound hs h) (before ++ after)
      (fun h' hmem => (hnamed h' (List.mem_cons_of_mem _ hmem)).trans (s.drop_id h).symm)
      hdropped hrest fun q hq => hone q (hmiddle.mem_iff.mpr (List.mem_cons_of_mem _ hq))

/-- What crosses outward is pinned behind what was pinned, once for each handle. -/
theorem outward_new {s s' : Session} (hs : s.Sound) {d : Datum} {v : Value}
    (h : s.outward d = (.ok v, s')) : ∃ new : List Pin, s'.pins = s.pins ++ new ∧
      (new.map (·.slot)).Perm (v.handles.map (·.slot)) ∧ ∀ p ∈ new, p.holders = 1 := by
  obtain ⟨honce, -, hhandles⟩ := outward_handles h
  obtain ⟨fs, ⟨e, he⟩ | ⟨v', hv, -, -⟩⟩ := outward_cases s d
  · rw [he] at h
    simp at h
  · rw [hv] at h
    obtain ⟨rfl, rfl⟩ : v' = v ∧ _ = s' := by simpa using h
    have hpinned : ((pinsOf v' (s.issuing.addAll fs).functions).map (·.slot)).Nodup :=
      List.Nodup.sublist (pinsOf_slots s v' fs) List.nodup_range'
    have hslots : (v'.handles.map (·.slot)).Nodup := by
      apply honce.map_on
      intro x hx y hy heq
      have hsession := (hhandles x hx).1.trans (hhandles y hy).1.symm
      cases x
      cases y
      simp_all
    refine ⟨_, rfl, ?_, fun p hp => ((pinsOf_mem _ _ p).mp hp).2.2⟩
    rw [List.perm_ext_iff_of_nodup hpinned hslots]
    intro slot
    rw [List.mem_map, List.mem_map]
    constructor
    · rintro ⟨p, hp, rfl⟩
      exact ((pinsOf_mem _ _ p).mp hp).1
    · rintro ⟨handle, hmem, rfl⟩
      obtain ⟨-, hnew, -, p, hp, hslot, -⟩ := hhandles handle hmem
      rcases List.mem_append.mp hp with hold | hp
      · have hgiven := hs.given p hold
        omega
      · exact ⟨p, hp, hslot⟩

end ScriptHost.Session
