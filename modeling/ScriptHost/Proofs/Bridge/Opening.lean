import ScriptHost.Proofs.Bridge.Globals
import ScriptHost.Proofs.Bridge.Reentry

/-!
# The open session

Only the host closes a session or releases what it has pinned, so a query finds in the end the session
that was open in the beginning, unless a host function asks for something else.
-/

set_option autoImplicit false

namespace ScriptHost.Bridge
open Lua

def SameOpening (b b' : Bridge) : Prop :=
  b'.session.map (fun s => (s.id, s.releases)) = b.session.map fun s => (s.id, s.releases)

theorem sameOpening_map {b b' : Bridge} (f : Session → Session) (h : b'.session = b.session.map f)
    (hf : ∀ s, b.session = some s → (f s).id = s.id ∧ (f s).releases = s.releases) :
    SameOpening b b' := by
  unfold SameOpening
  rw [h]
  cases hs : b.session with
  | none => rfl
  | some s =>
    obtain ⟨hid, hreleases⟩ := hf s hs
    simp only [Option.map_some, hid, hreleases]

theorem sameOpening_update (b : Bridge) (id : SessionId) (f : Session → Session)
    (hf : ∀ s, b.session = some s → s.id = id → (f s).id = s.id ∧ (f s).releases = s.releases) :
    SameOpening b (b.update id f) := by
  refine sameOpening_map _ rfl fun s hs => ?_
  by_cases hid : s.id = id
  · rw [if_pos hid]
    exact hf s hs hid
  · rw [if_neg hid]
    exact ⟨rfl, rfl⟩

theorem open_found {b : Bridge} {id : SessionId} {s t : Session} (ht : b.session = some t)
    (hs : b.find? id = some s) (hid : t.id = id) : t = s := by
  have hopen := find_open ht
  rw [hid, hs] at hopen
  exact (Option.some.inj hopen).symm

theorem sameOpening_enterRun (b : Bridge) (id : SessionId) : SameOpening b (b.enterRun id) :=
  sameOpening_update b id _ fun _ _ _ => ⟨rfl, rfl⟩

theorem sameOpening_leaveRun (b : Bridge) (id : SessionId) : SameOpening b (b.leaveRun id) := by
  exact sameOpening_map (less id) rfl fun s _ => ⟨less_id id s, less_releases id s⟩

theorem sameOpening_unpin (b before : Bridge) : SameOpening b (b.unpinSince before) :=
  sameOpening_map (fun s => s.dropFrom (before.nextSlot s.id)) rfl fun _ _ => ⟨rfl, rfl⟩

/-- A script alone neither closes nor releases its session. -/
theorem sameOpening_calm : Calm SameOpening where
  refl b := rfl
  trans h h' := h'.trans h
  heap b id h := sameOpening_update b id _ fun _ _ _ => ⟨rfl, rfl⟩
  outward b id s d hs := by
    refine sameOpening_update b id _ fun t ht hid => ?_
    obtain rfl := open_found ht hs hid
    obtain ⟨fs, ⟨e, he⟩ | ⟨v, hv, -⟩⟩ := t.outward_cases d
    · rw [he]
      exact ⟨rfl, rfl⟩
    · rw [hv]
      exact ⟨rfl, rfl⟩
  inward b id s h hs := by
    refine sameOpening_update b id _ fun t ht hid => ?_
    obtain rfl := open_found ht hs hid
    exact ⟨rfl, rfl⟩
  standard b id f args := by
    rcases standard_cases b id f args with h | ⟨_, h⟩ | ⟨_, h⟩ | ⟨d, h⟩ <;> rw [h]
    · rfl
    · rfl
    · rfl
    · exact sameOpening_update b id _ fun _ _ _ => ⟨rfl, rfl⟩
  guarded b b' _ h := h
  runs b b' id h := (sameOpening_leaveRun b' id).trans (Eq.trans h (sameOpening_enterRun b id))
  unpin b b' h := (sameOpening_unpin b' b).trans h

def Query.Spares (q : Query) : Request → Prop
  -- a guarded call can be neither closed nor reset anyway
  | .release => False
  | .close => q.guarded = true
  | .reset => q.guarded = true
  | _ => True

/-- As long as a guarded call is under way, only a release does something to the session as a whole. -/
theorem spared_permits (q : Query) : Permits q.Spares (WhileBusy SameOpening) where
  release hno := hno.elim
  close _ b hb := by
    rw [close_refused hb]
    exact ⟨hb, rfl⟩
  reset _ b hb := by
    rw [reset_refused hb]
    exact ⟨hb, rfl⟩

theorem plain_permits {q : Query} (hq : q.guarded = false) : Permits q.Spares SameOpening where
  release hno := hno.elim
  close hno := absurd (hq.symm.trans hno) Bool.false_ne_true
  reset hno := absurd (hq.symm.trans hno) Bool.false_ne_true

theorem query_sameOpening (host : Host) (fuel : Nat) (elsewhere : Handle → Bool) (b : Bridge)
    (q : Query) (hhost : ∀ name args, (host name args).Asks q.Spares) :
    Leads SameOpening b (q.run host fuel elsewhere b) := by
  cases hq : q.guarded with
  | true =>
    -- a guarded call marks the bridge first, and a marked bridge refuses to be closed or reset
    have hall : Walk.Walked (markedWalk sameOpening_calm (spared_permits q) host) host fuel :=
      Walk.walked _ (fun name args _ => (hhost name args).matches) fuel
    have hwalked := Walk.query_walked hall elsewhere b q trivial (fun hfree => by simp [hq] at hfree)
      fun _ _ => trivial
    exact fun r b' h => (hwalked.2 _ h).asks.2
  | false => exact (asking_lead sameOpening_calm (plain_permits hq) host hhost fuel).query elsewhere b q

end ScriptHost.Bridge
