import ScriptHost.Proofs.Hub.Holdings

/-!
# What a handle means

However the host goes on, a handle means the function that it came with as long as its session is open
and was not released again, and nothing at all otherwise.
-/

set_option autoImplicit false

namespace ScriptHost.Hub
open Lua

theorem empty_sound : World.Sound ⟨.empty, []⟩ where
  bridges n b hn := by simp [bridge?, Hub.empty] at hn
  held x hx := absurd hx List.not_mem_nil

theorem idle_lingering {b : Bridge} (hb : b.Sound) (hi : Idle b) : b.lingering = [] := by
  rw [List.eq_nil_iff_forall_not_mem]
  intro s hs
  exact hb.running s hs (hi.still s (List.mem_append_right _ hs))

def Opened (hub : Hub) (handle : Handle) : Prop :=
  ∃ m c t, hub.bridge? m = some c ∧ c.session = some t ∧ t.id = handle.session

def Current (hub : Hub) (x : Holding) : Prop :=
  ∃ m c t, hub.bridge? m = some c ∧ c.session = some t ∧ t.id = x.handle.session ∧
    t.releases = x.epoch

theorem isLive_iff {w : World} (hw : w.Sound) (handle : Handle) :
    w.hub.isLive handle = true ↔ w.hub.Opened handle := by
  rw [isLive, List.any_eq_true]
  constructor
  · rintro ⟨c, hc, hlive⟩
    obtain ⟨m, hm⟩ := List.getElem?_of_mem hc
    obtain ⟨-, hb, hidle⟩ := hw.bridges m c hm
    obtain ⟨t, ht⟩ := Option.isSome_iff_exists.mp hlive
    obtain ⟨hmem, hid⟩ := Bridge.mem_of_find ht
    rw [Bridge.sessions, idle_lingering hb hidle, List.append_nil, Option.mem_toList] at hmem
    exact ⟨m, c, t, hm, hmem, hid⟩
  · rintro ⟨m, c, t, hm, ht, hid⟩
    obtain ⟨-, hb, -⟩ := hw.bridges m c hm
    refine ⟨c, List.mem_of_getElem? hm, ?_⟩
    rw [Bridge.isLive, ← hid, Bridge.find_of_mem hb (Bridge.mem_open ht)]
    rfl

/-- The session of a held handle is followed wherever it is found. -/
theorem held_follows {w : World} (hw : w.Sound) {x : Holding} (hx : x ∈ w.held) {n : Nat}
    {b : Bridge} (hn : w.hub.bridge? n = some b) {s : Session} (hs : s ∈ b.sessions)
    (hid : s.id = x.handle.session) : Follows (copiesIn w.held x.handle) x s := by
  obtain ⟨hbid, hb, -⟩ := hw.bridges n b hn
  obtain ⟨c, hc, htracked⟩ := hw.held x hx
  have hbridge : x.handle.session.bridge = n := by
    rw [← hid, (hb.named s hs).1, hbid]
  rw [hbridge, hn] at hc
  obtain rfl := Option.some.inj hc
  exact htracked.follows s hs hid

theorem held_resolves {w : World} (hw : w.Sound) {x : Holding} (hx : x ∈ w.held) {n : Nat}
    {b : Bridge} (hn : w.hub.bridge? n = some b) {s : Session} (hs : s ∈ b.sessions)
    (hid : s.id = x.handle.session) (hepoch : s.releases = x.epoch) :
    ∃ f, x.function = some f ∧ Crossing.resolve s.id s.pins x.handle = .ok f := by
  obtain ⟨-, hb, -⟩ := hw.bridges n b hn
  obtain ⟨p, hp, hslot, hf, -⟩ := (held_follows hw hx hn hs hid).pinned hepoch
  exact ⟨p.function, hf, (Session.resolve_iff (hb.pins s hs) _ _).mpr ⟨hid.symm, p, hp, hslot, rfl⟩⟩

theorem held_refused {w : World} (hw : w.Sound) {x : Holding} (hx : x ∈ w.held) {n : Nat}
    {b : Bridge} (hn : w.hub.bridge? n = some b) {s : Session} (hs : s ∈ b.sessions)
    (h : ¬ (s.id = x.handle.session ∧ s.releases = x.epoch)) :
    ∃ e, Crossing.resolve s.id s.pins x.handle = .error e ∧ e.kind = .marshal := by
  obtain ⟨-, hb, -⟩ := hw.bridges n b hn
  cases hr : Crossing.resolve s.id s.pins x.handle with
  | error e => exact ⟨e, rfl, Session.resolve_error _ _ _ e hr⟩
  | ok f =>
    obtain ⟨hid, p, hp, hslot, -⟩ := (Session.resolve_iff (hb.pins s hs) _ _).mp hr
    have hfollows := held_follows hw hx hn hs hid.symm
    have hepoch := hfollows.epoch
    have hreleased : x.epoch < s.releases := by
      by_contra hnot
      exact h ⟨hid.symm, by omega⟩
    exact absurd hslot (hfollows.unpinned hreleased p hp)

theorem setBridge_same {hub : Hub} {n : Nat} {b : Bridge} (h : hub.bridge? n = some b) :
    hub.setBridge n b = hub := by
  obtain ⟨hn, heq⟩ := List.getElem?_eq_some_iff.mp h
  rw [setBridge, ← heq, List.set_getElem_self]

/-- A guarded call of an idle bridge that only answers leaves everything as it is. -/
theorem guarded_answer {hub : Hub} {n : Nat} {b : Bridge} (h : hub.bridge? n = some b)
    (hfree : b.busy = false) {α : Type} (f : Bridge → Bridge.Answer α) (r : Except ScriptError α)
    (hf : f { b with busy := true } = some (r, { b with busy := true })) :
    hub.run n (fun b => b.guarded f) = some (r, hub) := by
  have hleave : Bridge.leave { b with busy := true } = b := by
    rw [Bridge.leave, ← hfree]
  have hguarded : b.guarded f = some (r, b) := by
    rw [Bridge.guarded, Bridge.enter, hfree]
    simp only [Bool.false_eq_true, if_false, hf, Option.map_some, hleave]
  rw [run, h]
  simp only [hguarded, Option.map_some, setBridge_same h]

theorem drop_stale {w : World} (hw : w.Sound) {x : Holding} (hx : x ∈ w.held)
    (h : ¬ w.hub.Current x) : w.hub.drop x.handle = w.hub := by
  have hsame : ∀ b ∈ w.hub.bridges, b.drop x.handle = b := by
    intro b hmem
    obtain ⟨n, hn⟩ := List.getElem?_of_mem hmem
    obtain ⟨-, hb, hidle⟩ := hw.bridges n b hn
    have hlingering := idle_lingering hb hidle
    have hopen : ∀ s, b.session = some s →
        (if s.id = x.handle.session then s.drop x.handle else s) = s := by
      intro s hs
      by_cases hid : s.id = x.handle.session
      · have hfollows := held_follows hw hx hn (Bridge.mem_open hs) hid
        have hepoch := hfollows.epoch
        have hreleased : x.epoch < s.releases := by
          by_contra hnot
          exact h ⟨n, b, s, hn, hs, hid, by omega⟩
        rw [if_pos hid]
        exact s.drop_absent x.handle (hfollows.unpinned hreleased)
      · rw [if_neg hid]
    have hsession : b.session.map (fun s => if s.id = x.handle.session then s.drop x.handle else s) =
        b.session := by
      cases hs : b.session with
      | none => rfl
      | some s => rw [Option.map_some, hopen s hs]
    rw [Bridge.drop, Bridge.update]
    simp only [hsession, hlingering, List.map_nil]
    rw [← hlingering]
  rw [drop, List.map_congr_left hsame, List.map_id']

theorem invoke_cases {hub : Hub} {n : Nat} {b : Bridge} (h : hub.bridge? n = some b) (host : Host)
    (fuel : Nat) (handle : Handle) (args : List Value) :
    hub.invoke host fuel n handle args =
      if hub.isLive handle then hub.run n fun b => Bridge.invokeLive host fuel b handle args
      else some (.error .closed, hub) := by
  have hlive : (b.isLive handle || hub.isLive handle) = hub.isLive handle := by
    cases hb : b.isLive handle with
    | false => rfl
    | true =>
      have hany : hub.isLive handle = true := List.any_eq_true.mpr ⟨b, List.mem_of_getElem? h, hb⟩
      rw [hany]
      rfl
  rw [invoke, run, run, h]
  simp only [Bridge.invoke, hlive]
  by_cases hopen : hub.isLive handle = true
  · rw [if_pos hopen, if_pos hopen]
  · rw [if_neg hopen, if_neg hopen]
    simp only [Bridge.answer, Option.map_some, setBridge_same h]

/-- A handle on an idle bridge with an open session: its function is called, or the call is refused. -/
theorem invokeLive_open {hub : Hub} {n : Nat} {b : Bridge} (h : hub.bridge? n = some b)
    (hfree : b.busy = false) {s : Session} (hs : b.session = some s) (host : Host) (fuel : Nat)
    (handle : Handle) (args : List Value) :
    (hub.run n fun b => Bridge.invokeLive host (fuel + 1) b handle args) =
      match Crossing.resolve s.id s.pins handle with
      | .error e => some (.error e, hub)
      | .ok f => hub.run n fun b => b.guarded fun b => Bridge.callWith host fuel b s.id f args := by
  cases hr : Crossing.resolve s.id s.pins handle with
  | error e =>
    simp only [Bridge.invokeLive]
    apply guarded_answer h hfree
    simp only [Bridge.withSession, hs, hr, Bridge.answer]
  | ok f =>
    simp only [Bridge.invokeLive, run, h, Bridge.guarded, Bridge.enter, hfree, Bool.false_eq_true,
      if_false, Bridge.withSession, hs, hr]

theorem invokeLive_closed {hub : Hub} {n : Nat} {b : Bridge} (h : hub.bridge? n = some b)
    (hfree : b.busy = false) (hs : b.session = none) (host : Host) (fuel : Nat) (handle : Handle)
    (args : List Value) :
    (hub.run n fun b => Bridge.invokeLive host (fuel + 1) b handle args) =
      some (.error .closed, hub) := by
  simp only [Bridge.invokeLive]
  apply guarded_answer h hfree
  simp only [Bridge.withSession, hs]

def renewed : List Op := [
  .openBridge .standard,
  .call 0 Host.none 40 (.execute "return function() return 1 end" "one"),
  .call 0 Host.none 1 .reset,
  .call 0 Host.none 40 (.execute "return function() return 2 end" "two")]

def slotShared (w : World) : Option (Holding × Holding × Bridge × Session) :=
  -- two handles of one slot, of which only the second is of the open session
  match w.held, w.hub.bridge? 0 with
  | [x, y], some b => b.session.bind fun s =>
    if x.handle.slot = y.handle.slot ∧ w.hub.isLive x.handle = false ∧
      s.id = y.handle.session ∧ s.releases = y.epoch then some (x, y, b, s) else none
  | _, _ => none

end ScriptHost.Hub
