import ScriptHost.Bridge.Install
import ScriptHost.Proofs.Bridge.Globals
import ScriptHost.Proofs.Lua.Start

/-!
# Installing the standard globals

No table of a new heap has a metatable.  As long as that is so and nothing limits the memory, nothing stands
in the way of the standard globals, and they are installed without fail.
-/

set_option autoImplicit false

namespace ScriptHost
open Lua

namespace Lua

def Heap.Unadorned (h : Heap) : Prop := ∀ a, (h.table a).metatable = none

theorem Table.set_metatable (t : Table) (key value : Datum) :
    (t.set key value).metatable = t.metatable := by
  have hadd : ∀ u : Table, (u.addEntry key value).metatable = u.metatable := by
    intro u
    unfold Table.addEntry
    split <;> rfl
  have hresized : (t.resized key).metatable = t.metatable := rfl
  unfold Table.set
  split
  · rfl
  · split
    · rfl
    · split
      · rfl
      · split
        · exact hadd t
        · unfold Table.store
          split
          · exact hresized
          · exact (hadd _).trans hresized

theorem Heap.modify_unadorned {h : Heap} (hu : h.Unadorned) (address : Nat) (f : Table → Table)
    (hf : ∀ t, (f t).metatable = t.metatable) : (h.modify address f).Unadorned := by
  intro a
  have ha := hu a
  simp only [Heap.table, Heap.modify, Array.getD_eq_getD_getElem?] at ha ⊢
  rw [Array.getElem?_modify]
  split
  · cases ht : h.tables[a]? with
    | none => rfl
    | some t =>
      rw [ht] at ha
      simpa [hf] using ha
  · exact ha

theorem Heap.set_unadorned {h : Heap} (hu : h.Unadorned) (address : Nat) (key value : Datum) :
    (h.set address key value).Unadorned :=
  h.modify_unadorned hu address _ fun t => t.set_metatable key value

theorem Heap.allocate_unadorned {h : Heap} (hu : h.Unadorned) {t : Table} (ht : t.metatable = none) :
    (h.allocate t).2.Unadorned := by
  intro a
  have ha := hu a
  simp only [Heap.table, Heap.allocate, Array.getD_eq_getD_getElem?] at ha ⊢
  rw [Array.getElem?_push]
  split
  · exact ht
  · exact ha

theorem Heap.bare_unadorned (allocator : Option Allocator) :
    (Heap.bare allocator).Unadorned := by
  intro a
  match a with
  | 0 => rfl
  | 1 => rfl
  | a + 2 => rfl

theorem Heap.unadorned_founded : Founded Heap.Unadorned where
  allocate _ _ _ hu := Heap.allocate_unadorned hu rfl
  set _ _ _ _ hu := Heap.set_unadorned hu _ _ _
  library _ _ hu := hu
  addCell _ _ hu := hu
  serials _ _ hu := hu
  spend _ _ hu := hu

structure Heap.Unhindered (h : Heap) : Prop where
  unadorned : h.Unadorned
  unlimited : h.Unlimited

theorem Heap.start_unhindered (sandbox : Bool) : (Heap.start sandbox none).Unhindered where
  unadorned := Heap.start_founded Heap.unadorned_founded sandbox (Heap.bare_unadorned none)
  unlimited := Heap.start_allocator sandbox none

theorem Heap.unhindered_setsGlobal {h : Heap} (hu : h.Unhindered) (name : String) :
    h.SetsGlobal name := by
  refine .inr fun m hm => ?_
  rw [hu.unadorned h.globals] at hm
  exact absurd hm (by simp)

theorem Heap.unhindered_set {h : Heap} (hu : h.Unhindered) (address : Nat) (key value : Datum) :
    (h.set address key value).Unhindered :=
  ⟨Heap.set_unadorned hu.unadorned address key value, hu.unlimited⟩

end Lua

namespace Bridge

theorem methodTable_unhindered (t : Table) (methods : List (String × HostFn)) (h : Heap)
    (ht : t.metatable = none) (hu : h.Unhindered) :
    ∃ t' h', methodTable t methods h = .ok (t', h') ∧ t'.metatable = none ∧ h'.Unhindered := by
  induction methods generalizing t h with
  | nil => exact ⟨t, h, rfl, ht, hu⟩
  | cons m rest ih =>
    have hroutine : (h.addRoutine (.host m.2)).2.Unhindered := { hu with }
    obtain ⟨t', h', hmade, hrest⟩ := ih _ _ ((t.set_metatable (.text m.1) _).trans ht) hroutine
    refine ⟨t', h', ?_, hrest⟩
    rw [methodTable, Heap.claim_unlimited hu.unlimited]
    exact hmade

theorem makeModule_unhindered (methods : List (String × HostFn)) {h : Heap} (hu : h.Unhindered) :
    ∃ d h', makeModule methods h = .ok (d, h') ∧ h'.Unhindered := by
  obtain ⟨t, h', hmade, ht, hu'⟩ := methodTable_unhindered .empty methods h rfl hu
  refine ⟨.table h'.tables.size, (h'.allocate t).2, ?_, ⟨Heap.allocate_unadorned hu'.unadorned ht, hu'.unlimited⟩⟩
  rw [makeModule, Heap.claim_unlimited hu.unlimited]
  simp only [hmade]
  rfl

section
variable (host : Host) (fuel : Nat) {b : Bridge} {s : Session} (hs : b.session = some s)
  (hu : s.heap.Unhindered)
include hs hu

theorem registerModule_unhindered (name : String) (methods : List (String × HostFn)) :
    ∃ b' h, b.registerModule host (fuel + 3) name methods = some (.ok (), b') ∧
      b'.session = some (s.withHeap h) ∧ h.Unhindered := by
  obtain ⟨d, h, hmade, hu'⟩ := makeModule_unhindered methods hu
  have hput := putHeap_open hs h
  obtain ⟨b', hrun, hb'⟩ := run_finish hput host (fuel + 1) (.writing name d) [] _
    (Machine.writing_unlimited hu'.unlimited d (Heap.unhindered_setsGlobal hu' name))
  have hstart : run host (fuel + 3) (b.putHeap s.id h) s.id (.writing name d) =
      some (.ok (firstValue []), b') := hrun
  refine ⟨b'.leaveRun s.id, h.setGlobal name d, ?_, leaveRun_open hb',
    Heap.unhindered_set hu' _ _ _⟩
  simp only [registerModule, withSession, hs, hmade, hstart]
  rfl

/-- A standard global is made without fail, and again nothing stands in the way of the next. -/
theorem expose_unhindered (name : String) (g : StandardGlobal) :
    ∃ b' h, b.expose host (fuel + 3) name g = some (.ok (), b') ∧
      b'.session = some (s.withHeap h) ∧ h.Unhindered := by
  cases g with
  | function f =>
    have hroutine : (s.heap.addRoutine (.host (.standard f))).2.Unhindered := { hu with }
    have hin : s.inward (.function (.standard f)) = .ok (.function s.heap.routines.size,
        s.withHeap (s.heap.addRoutine (.host (.standard f))).2) := by
      rw [Session.inward, Crossing.inward, Crossing.claim_unlimited hu.unlimited]
      rfl
    obtain ⟨b', hb', hopen⟩ := setGlobal_plain hs host fuel name _ _ hroutine.unlimited hin
      (Heap.unhindered_setsGlobal hroutine name)
    exact ⟨b', _, hb', hopen, Heap.unhindered_set hroutine _ _ _⟩
  | table methods => exact registerModule_unhindered host fuel hs hu name _

theorem exposeAll_unhindered (globals : List (String × StandardGlobal)) :
    ∃ b' h, exposeAll host (fuel + 3) b globals = some (.ok (), b') ∧
      b'.session = some (s.withHeap h) := by
  induction globals generalizing b s with
  | nil => exact ⟨b, s.heap, rfl, hs⟩
  | cons g rest ih =>
    obtain ⟨b₁, h, hb₁, hopen, hu₁⟩ := expose_unhindered host fuel hs hu g.1 g.2
    obtain ⟨b₂, h₂, hb₂, hopen₂⟩ := ih hopen hu₁
    refine ⟨b₂, h₂, ?_, hopen₂⟩
    simp only [exposeAll, hb₁, Answer.next, hb₂]

/-- Where no table has a metatable and nothing limits the memory the standard globals are installed once. -/
theorem install_unhindered (hnew : s.installed = false) :
    ∃ b' h, b.install host (fuel + 3) = some (.ok true, b') ∧
      b'.session = some { s with installed := true, heap := h } := by
  obtain ⟨b', h, hb', hopen⟩ := exposeAll_unhindered host fuel hs hu standardGlobals
  refine ⟨b'.update s.id fun s => { s with installed := true }, h, ?_, update_open hopen _⟩
  simp only [install, withSession, hs, hnew, hb', Answer.next, answer]
  rfl

end

/-- What is installed into a session that has no standard globals is new. -/
theorem install_new {host : Host} {fuel : Nat} {b b' : Bridge} {s : Session} (hs : b.session = some s)
    (hnew : s.installed = false) {new : Bool} (h : b.install host fuel = some (.ok new, b')) :
    new = true := by
  rw [install, withSession, hs] at h
  dsimp only at h
  rw [hnew, if_neg Bool.false_ne_true, Answer.next.eq_def] at h
  split at h
  · cases h
  · cases h
  · exact (Except.ok.inj (Prod.mk.inj (Option.some.inj h)).1).symm

end Bridge

end ScriptHost
