import ScriptHost.Proofs.Lua.Memory
import ScriptHost.Lua.Library

/-!
# The heap that a script starts with

A new heap comes about by new tables, by functions of the library, by cells and by fields set one after the
other.  A property of heaps that these keep holds of it when it holds of the empty one.
-/

set_option autoImplicit false

namespace ScriptHost.Lua

structure Founded (P : Heap → Prop) : Prop where
  allocate : ∀ h items room, P h → P (h.allocate (.sized items room)).2
  set : ∀ h address key value, P h → P (h.set address key value)
  library : ∀ h b, P h → P (h.addRoutine (.library b)).2
  addCell : ∀ h d, P h → P (h.addCell d).2
  serials : ∀ h n, P h → P { h with serials := n }
  spend : ∀ h n, P h → P { h with spent := n }

theorem Lasting.founded {P : Heap → Prop} (hP : Lasting P) (hserials : ∀ h n, P h → P { h with serials := n }) :
    Founded P where
  allocate h items room hp := hP.allocate h (.sized items room) hp
  set _ _ _ _ hp := set_lasts hP hp _ _ _
  library := hP.library
  addCell := hP.addCell
  serials := hserials
  spend := hP.spend

namespace Heap

section
variable {P : Heap → Prop} (hP : Founded P) {h : Heap} (hp : P h)
include hP hp

theorem addHidden_founded (functions : List Builtin) : P (h.addHidden functions) := by
  unfold Heap.addHidden
  induction functions generalizing h with
  | nil => exact hp
  | cons b rest ih => exact ih (hP.library h b hp)

theorem addCells_founded (ds : List Datum) : P (h.addCells ds).2 := by
  induction ds generalizing h with
  | nil => exact hp
  | cons d rest ih => exact ih (hP.addCell h d hp)

theorem addThread_founded : P h.addThread.2 := hP.addCell _ .nil (hP.addCell h (.bool true) hp)

theorem addFunctions_founded (address : Nat) (functions : List (String × Builtin)) :
    P (h.addFunctions address functions) := by
  induction functions generalizing h with
  | nil => exact hp
  | cons f rest ih => exact ih (hP.set _ _ _ _ (hP.library h f.2 hp))

theorem addModules_founded (modules : List (String × List (String × Builtin))) :
    P (h.addModules modules) := by
  induction modules generalizing h with
  | nil => exact hp
  | cons m rest ih =>
    exact ih (hP.set _ _ _ _ (addFunctions_founded hP (hP.allocate h 0 m.2.length hp) _ m.2))

theorem extend_founded (module : String) (members : List (String × Datum)) :
    P (h.extend module members) := by
  unfold Heap.extend
  split
  · next a _ =>
    generalize h = h at hp ⊢
    induction members generalizing h with
    | nil => exact hp
    | cons m rest ih => exact ih _ (hP.set h a _ _ hp)
  · exact hp

end

theorem start_founded {P : Heap → Prop} (hP : Founded P) (sandbox : Bool) {allocator : Option Allocator}
    (hbare : P (bare allocator)) : P (start sandbox allocator) := by
  unfold Heap.start
  extract_lets bare basic hidden cells main named modular text math utf8
  have hbasic : P basic := addFunctions_founded hP hbare _ _
  have hcells : P cells := addCells_founded hP (addHidden_founded hP hbasic _) _
  have hmain : P main := addThread_founded hP hcells
  have hnamed : P named := hP.set _ _ _ _ (hP.set _ _ _ _ hmain)
  have htext : P text := hP.set _ _ _ _ (addModules_founded hP hnamed _)
  have hutf8 : P utf8 := extend_founded hP (extend_founded hP htext _ _) _ _
  clear_value utf8
  split
  · exact hP.spend utf8 _ hutf8
  · next outside io _ =>
    have houtside : P outside := addModules_founded hP (addFunctions_founded hP hutf8 _ _) _
    have hio : P io := extend_founded hP houtside _ _
    clear_value io
    exact hP.spend _ _ (hP.serials io 3 hio)

theorem allocator_founded (allocator : Option Allocator) : Founded fun h => h.allocator = allocator :=
  (lasting_allocator allocator).founded fun _ _ hp => hp

/-- A new heap asks the allocator that it was opened with. -/
@[simp] theorem start_allocator (sandbox : Bool) (allocator : Option Allocator) :
    (start sandbox allocator).allocator = allocator :=
  start_founded (allocator_founded allocator) sandbox rfl

end Heap

end ScriptHost.Lua
