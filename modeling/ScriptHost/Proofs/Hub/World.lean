import ScriptHost.Hub
import ScriptHost.Proofs.Bridge.Handles

/-!
# Runs of the host

The host opens bridges, calls into them and keeps, copies and lets go of the handles that it gets.
`Holding` notes for each of them which function was pinned when it came, and how often its session had
been released by then.
-/

set_option autoImplicit false

namespace ScriptHost.Hub
open Lua

inductive Call where
  | execute (source chunk : String)
  | callGlobal (name : String) (args : List Value)
  | invoke (handle : Handle) (args : List Value)
  | getGlobal (name : String)
  | setGlobal (name : String) (v : Value)
  | compile (source chunk : String)
  | install
  | runUi (source chunk : String)
  | release
  | close
  | reset

def valueHandles : Except ScriptError Value → List Handle
  | .ok v => v.handles
  | .error _ => []

def compiledHandles : Except ScriptError Handle → List Handle
  | .ok handle => [handle]
  | .error _ => []

def Call.run (host : Host) (fuel : Nat) (elsewhere : Handle → Bool) (b : Bridge) :
    Call → Option (List Handle × Bridge)
  | .execute source chunk =>
    (b.executeNamed host fuel source chunk).map fun r => (valueHandles r.1, r.2)
  | .callGlobal name args => (b.callGlobal host fuel name args).map fun r => (valueHandles r.1, r.2)
  | .invoke handle args =>
    (b.invoke host fuel elsewhere handle args).map fun r => (valueHandles r.1, r.2)
  | .getGlobal name => (b.getGlobal host fuel name).map fun r => (valueHandles r.1, r.2)
  | .setGlobal name v => (b.setGlobal host fuel name v).map fun r => ([], r.2)
  | .compile source chunk =>
    some (compiledHandles (b.compile source chunk).1, (b.compile source chunk).2)
  | .install => (b.install host fuel).map fun r => ([], r.2)
  | .runUi source chunk =>
    (b.runUiNamed host fuel source chunk).map fun r => (Bridge.treeHandles r.1, r.2)
  | .release => some ([], b.release.2)
  | .close => some ([], b.close.2)
  | .reset => some ([], b.reset.2)

/-- A handle of the host: the function that was pinned for it when it came, and how often its session
had been released then. -/
structure Holding where
  handle : Handle
  function : Option Datum
  epoch : Nat

def session? (hub : Hub) (id : SessionId) : Option Session :=
  (hub.bridge? id.bridge).bind (·.find? id)

def holding (hub : Hub) (handle : Handle) : Holding :=
  match hub.session? handle.session with
  | some s => ⟨handle, (Crossing.resolve s.id s.pins handle).toOption, s.releases⟩
  | none => ⟨handle, none, 0⟩

structure World where
  hub : Hub
  held : List Holding

inductive Op where
  | openBridge (config : Config)
  | call (n : Nat) (host : Host) (fuel : Nat) (c : Call)
  | clone (i : Nat)
  | drop (i : Nat)

def step (w : World) : Op → Option World
  | .openBridge config => some { w with hub := (w.hub.openBridge config).2 }
  | .call n host fuel c =>
    (w.hub.run n fun b => c.run host fuel w.hub.isLive b).map fun r =>
      ⟨r.2, w.held ++ r.1.map r.2.holding⟩
  | .clone i => w.held[i]?.map fun x => ⟨w.hub.retain x.handle, w.held ++ [x]⟩
  | .drop i => w.held[i]?.map fun x => ⟨w.hub.drop x.handle, w.held.eraseIdx i⟩

def after (w : World) : List Op → Option World
  | [] => some w
  | op :: ops => (step w op).bind fun w => after w ops

theorem value_granted {b b' : Bridge} {handles : List Handle} (hb : b.Sound)
    {a : Bridge.Answer Value}
    (hleads : Bridge.Leads (fun b b' => b.Sound → b'.Sound ∧ Bridge.Later b b') b a)
    (hgrants : Bridge.Grants b a) (h : a.map (fun r => (valueHandles r.1, r.2)) = some (handles, b')) :
    b'.Sound ∧ Bridge.Later b b' ∧ Bridge.Granted b b' handles := by
  obtain ⟨⟨r, b₁⟩, hr, heq⟩ := Option.map_eq_some_iff.mp h
  obtain ⟨rfl, rfl⟩ := Prod.mk.inj heq
  obtain ⟨hb₁, hlater⟩ := hleads r b₁ hr hb
  cases r with
  | error e => exact ⟨hb₁, hlater, Bridge.granted_nil b b₁⟩
  | ok v => exact ⟨hb₁, hlater, hgrants v b₁ hr hb⟩

theorem none_granted {α : Type} {b b' : Bridge} {handles : List Handle} (hb : b.Sound)
    {a : Bridge.Answer α}
    (hleads : Bridge.Leads (fun b b' => b.Sound → b'.Sound ∧ Bridge.Later b b') b a)
    (h : a.map (fun r => (([] : List Handle), r.2)) = some (handles, b')) :
    b'.Sound ∧ Bridge.Later b b' ∧ Bridge.Granted b b' handles := by
  obtain ⟨⟨r, b₁⟩, hr, heq⟩ := Option.map_eq_some_iff.mp h
  obtain ⟨rfl, rfl⟩ := Prod.mk.inj heq
  obtain ⟨hb₁, hlater⟩ := hleads r b₁ hr hb
  exact ⟨hb₁, hlater, Bridge.granted_nil b b₁⟩

theorem call_granted (host : Host) (fuel : Nat) (elsewhere : Handle → Bool) (b b' : Bridge)
    (c : Call) (handles : List Handle) (hb : b.Sound)
    (h : c.run host fuel elsewhere b = some (handles, b')) :
    b'.Sound ∧ Bridge.Later b b' ∧ Bridge.Granted b b' handles := by
  have hall := Bridge.runs_lead Bridge.later_steady host fuel
  have hplain : ∀ b₁ : Bridge, b₁.Sound ∧ Bridge.Later b b₁ →
      some (([] : List Handle), b₁) = some (handles, b') →
      b'.Sound ∧ Bridge.Later b b' ∧ Bridge.Granted b b' handles := by
    intro b₁ hafter heq
    obtain ⟨rfl, rfl⟩ : [] = handles ∧ b₁ = b' := by simpa using heq
    exact ⟨hafter.1, hafter.2, Bridge.granted_nil b b₁⟩
  have hquery : ∀ q : Bridge.Query, (q.run host fuel elsewhere b).map (fun r => (valueHandles r.1, r.2)) =
      some (handles, b') → b'.Sound ∧ Bridge.Later b b' ∧ Bridge.Granted b b' handles := fun q =>
    value_granted hb (hall.query elsewhere b q) (Bridge.query_grants host fuel b elsewhere q)
  cases c with
  | execute source chunk => exact hquery (.execute source chunk) h
  | callGlobal name args => exact hquery (.callGlobal name args) h
  | invoke handle args => exact hquery (.invoke handle args) h
  | getGlobal name => exact hquery (.getGlobal name) h
  | setGlobal name v => exact none_granted hb (hall.setGlobal b name v) h
  | compile source chunk =>
    obtain ⟨hb', hlater⟩ := Bridge.compile_later b source chunk hb
    rcases hc : b.compile source chunk with ⟨r, b₁⟩
    simp only [Call.run, hc, Option.some.injEq, Prod.mk.injEq] at h
    obtain ⟨rfl, rfl⟩ := h
    rw [hc] at hb' hlater
    cases r with
    | error e => exact ⟨hb', hlater, Bridge.granted_nil b b₁⟩
    | ok handle => exact ⟨hb', hlater, Bridge.compile_grants b b₁ source chunk handle hb hc⟩
  | install => exact none_granted hb (Bridge.install_leads Bridge.later_steady host fuel b) h
  | runUi source chunk =>
    obtain ⟨⟨r, b₁⟩, hr, heq⟩ := Option.map_eq_some_iff.mp h
    obtain ⟨rfl, rfl⟩ := Prod.mk.inj heq
    exact Bridge.runUiNamed_granted host fuel b b₁ source chunk r hb hr
  | release => exact hplain _ (Bridge.later_release hb) h
  | close => exact hplain _ (Bridge.later_close hb) h
  | reset => exact hplain _ (Bridge.later_reset hb) h

end ScriptHost.Hub
