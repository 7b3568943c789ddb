import ScriptHost.Ui.Run
import ScriptHost.Proofs.Bridge.Opening

/-!
# A run turn by turn

`drive` does the turns of a machine one after another.  `RunState.turn` is one of them, so a run can be
followed from any state it passes to any later one, and what it ends with is read off the last.
-/

set_option autoImplicit false

namespace ScriptHost.Bridge
open Lua

def SameSession (b b' : Bridge) : Prop := b'.session.map (·.id) = b.session.map (·.id)

theorem sameSession_opening {b b' : Bridge} (h : SameOpening b b') : SameSession b b' := by
  have hids := congrArg (Option.map Prod.fst) h
  rwa [Option.map_map, Option.map_map] at hids

theorem sameSession_calm : Calm SameSession where
  refl _ := rfl
  trans h h' := h'.trans h
  heap b id h := sameSession_opening (sameOpening_calm.heap b id h)
  outward b id s d hs := sameSession_opening (sameOpening_calm.outward b id s d hs)
  inward b id s h hs := sameSession_opening (sameOpening_calm.inward b id s h hs)
  standard b id f args := sameSession_opening (sameOpening_calm.standard b id f args)
  guarded _ _ _ h := h
  runs b b' id h := (sameSession_opening (sameOpening_leaveRun b' id)).trans
    (Eq.trans h (sameSession_opening (sameOpening_enterRun b id)))
  unpin b b' h := (sameSession_opening (sameOpening_unpin b' b)).trans h

/-- While a guarded call is under way nothing that a host function asks for changes the session. -/
theorem busy_permits : Permits (fun _ => True) (WhileBusy SameSession) where
  release _ b hb := by
    cases hs : b.session <;> simp [release, SameSession, Session.release, hs, hb]
  close _ b hb := by
    rw [close_refused hb]
    exact ⟨hb, rfl⟩
  reset _ b hb := by
    rw [reset_refused hb]
    exact ⟨hb, rfl⟩

theorem drive_sameSession {host : Host} {fuel : Nat} {b b' : Bridge} {id : SessionId} {m : Machine}
    {r : Except Thrown (List Datum)} {h : Heap} (hb : b.busy = true)
    (hd : drive host fuel b id m = some (r, h, b')) : b'.busy = true ∧ SameSession b b' :=
  (asking_lead (calm_busy sameSession_calm) busy_permits host
    (fun name args => HostAction.asks_any (host name args)) fuel).drive b id m r h b' hd hb

structure RunState where
  fuel : Nat
  bridge : Bridge
  machine : Machine

namespace RunState

def answered (fuel : Nat) (b : Bridge) (id : SessionId) (stack : List Frame)
    (r : Except ScriptError Datum) : RunState :=
  let (h, b) := b.takeHeap id
  match r with
  | .ok d => ⟨fuel, b, .resume [d] h stack⟩
  | .error e => ⟨fuel, b, .interrupt e h stack⟩

def turn (host : Host) (id : SessionId) (s : RunState) : Option RunState :=
  match s.fuel with
  | 0 => none
  | fuel + 1 =>
    match s.machine.advance with
    | .running m => some ⟨fuel, s.bridge, m⟩
    | .finished _ _ => none
    | .failed _ _ => none
    | .host f args h stack =>
      (callHost host (fuel + 1) (s.bridge.putHeap id h) id f args).map fun r =>
        answered fuel r.2 id stack r.1

def turns (host : Host) (id : SessionId) : Nat → RunState → Option RunState
  | 0, s => some s
  | n + 1, s => (s.turn host id).bind (turns host id n)

def drive (host : Host) (id : SessionId) (s : RunState) :
    Option (Except Thrown (List Datum) × Heap × Bridge) :=
  Bridge.drive host (s.fuel + 1) s.bridge id s.machine

variable {host : Host} {id : SessionId} {s t u : RunState}

theorem drive_turn (h : s.turn host id = some t) : s.drive host id = t.drive host id := by
  obtain ⟨fuel, b, m⟩ := s
  cases fuel with
  | zero => simp [turn] at h
  | succ fuel =>
    simp only [turn] at h
    rw [drive, Bridge.drive]
    cases hm : m.advance with
    | running m' =>
      simp only [hm, Option.some.injEq] at h
      rw [← h, drive]
    | finished values h' => simp [hm] at h
    | failed e h' => simp [hm] at h
    | host f args h' stack =>
      simp only [hm] at h
      obtain ⟨⟨r, b'⟩, hcall, rfl⟩ := Option.map_eq_some_iff.mp h
      simp only [hcall]
      cases r <;> rfl

theorem drive_turns {n : Nat} (h : turns host id n s = some t) : s.drive host id = t.drive host id := by
  induction n generalizing s with
  | zero =>
    obtain rfl := Option.some.inj h
    rfl
  | succ n ih =>
    obtain ⟨u, hu, hrest⟩ := Option.bind_eq_some_iff.mp h
    rw [drive_turn hu, ih hrest]

theorem drive_finished {values : List Datum} {h : Heap}
    (hend : s.machine.advance = .finished values h) :
    s.drive host id = some (.ok values, h, s.bridge) := by
  simp only [drive, Bridge.drive, hend]

end RunState

/-- A user-interface script that is about to run: the standard globals are there, no guarded call is
under way, and its source was read in the open session. -/
structure UiReady where
  bridge : Bridge
  session : Session
  body : Datum
  heap : Heap

def uiReady (host : Host) (fuel : Nat) (b : Bridge) (source chunk : String) : Option UiReady :=
  match b.release.2.install host fuel with
  | some (.ok _, b) =>
    match b.busy, b.session with
    | false, some s =>
      match s.heap.load source.toUTF8 chunk with
      | .ok (f, h) => some ⟨{ b with busy := true }, s, f, h⟩
      | .error _ => none
    | _, _ => none
  | _ => none

namespace UiReady

def start (r : UiReady) (fuel : Nat) : RunState :=
  let taken := ((r.bridge.putHeap r.session.id r.heap).enterRun r.session.id).takeHeap r.session.id
  ⟨fuel, taken.2, .start r.body [] taken.1⟩

end UiReady

theorem uiReady_cases {host : Host} {fuel : Nat} {b : Bridge} {source chunk : String} {r : UiReady}
    (h : uiReady host fuel b source chunk = some r) :
    ∃ new b₁, b.release.2.install host fuel = some (.ok new, b₁) ∧ b₁.busy = false ∧
      b₁.session = some r.session ∧ r.bridge = { b₁ with busy := true } ∧
      r.session.heap.load source.toUTF8 chunk = .ok (r.body, r.heap) := by
  simp only [uiReady] at h
  split at h
  · next new b₁ hinstall =>
    split at h
    · next s hbusy hs =>
      split at h
      · next f heap hload =>
        obtain rfl := Option.some.inj h
        exact ⟨new, b₁, hinstall, hbusy, hs, rfl, hload⟩
      · simp at h
    · simp at h
  · simp at h

theorem start_busy (r : UiReady) (fuel : Nat) : WhileBusy SameSession r.bridge (r.start fuel).bridge := by
  have hcalm := calm_busy sameSession_calm
  have hput := hcalm.heap r.bridge r.session.id r.heap
  have henter : WhileBusy SameSession (r.bridge.putHeap r.session.id r.heap)
      ((r.bridge.putHeap r.session.id r.heap).enterRun r.session.id) :=
    fun hb => ⟨hb, sameSession_opening (sameOpening_enterRun _ _)⟩
  exact hcalm.trans (hcalm.trans hput henter) (takeHeap_leads hcalm _ _)

/-- A script whose run ends with data that unfold to a value: the value is read as a tree. -/
theorem evaluateUi_finished {host : Host} {fuel : Nat} {b b' : Bridge} {source chunk : String}
    {r : UiReady} (hr : uiReady host (fuel + 4) b source chunk = some r) {values : List Datum}
    {h : Heap} (hd : (r.start fuel).drive host r.session.id = some (.ok values, h, b')) {v : Value}
    (hu : Crossing.Unfolds h Crossing.NoHandle (firstValue values) v) :
    ∃ b'', b.evaluateUi host (fuel + 4) source chunk = some (UiNode.ofValue v, b'') := by
  obtain ⟨new, b₁, hinstall, hbusy, hs, hbridge, hload⟩ := uiReady_cases hr
  obtain ⟨hstarted, hfirst⟩ := start_busy r fuel (by rw [hbridge])
  obtain ⟨-, hlast⟩ := drive_sameSession hstarted hd
  have hids : b'.session.map (·.id) = some r.session.id := by
    rw [hlast, hfirst, hbridge, show ({ b₁ with busy := true } : Bridge).session = b₁.session from rfl, hs]
    rfl
  obtain ⟨t, ht, hid⟩ := Option.map_eq_some_iff.mp hids
  have hend : (b'.putHeap r.session.id h).find? r.session.id = some (t.withHeap h) := by
    rw [← hid]
    exact find_open (putHeap_open ht h)
  have hout := Session.outward_plain (t.withHeap h) hu
  have hrun : run host (fuel + 2) (r.bridge.putHeap r.session.id r.heap) r.session.id (.start r.body []) =
      some (.ok (firstValue values), b'.putHeap r.session.id h) := by
    simp only [RunState.drive, UiReady.start] at hd
    simp only [run, hd, answer]
  have hexecute : ∃ b'', b₁.executeNamed host (fuel + 4) source chunk = some (.ok v, b'') := by
    have hopen : r.bridge.session = some r.session := by rw [hbridge]; exact hs
    rw [executeNamed, guarded_free hbusy, ← hbridge]
    simp only [withSession, hopen, hload, runOutward, hrun, Bridge.outward, hend, hout, Option.map_some]
    exact ⟨_, rfl⟩
  obtain ⟨b₂, hexecute⟩ := hexecute
  have hevaluate : b.evaluateUi host (fuel + 4) source chunk = some (b₂.treeOf v) := by
    show (Answer.next (b.release.2.install host (fuel + 4)) _) = _
    rw [hinstall]
    simp only [Answer.next, hexecute]
  exact ⟨_, hevaluate⟩

end ScriptHost.Bridge
