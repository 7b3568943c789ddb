import Mathlib.Data.List.Perm.Subperm
import Mathlib.Data.List.Flatten
import ScriptHost.Proofs.Crossing.Issue

/-!
# Handles in what went out

Every handle in a host value was given out for one function that was met, and no two places share one.
Values may be lost on the way, when two keys have one text, but none is doubled.
-/

set_option autoImplicit false

namespace ScriptHost.Value

theorem itemHandles_eq (items : List Value) : itemHandles items = items.flatMap handles := by
  induction items with
  | nil => rfl
  | cons v rest ih => rw [itemHandles, ih, List.flatMap_cons]

theorem memberHandles_eq (members : List (String × Value)) :
    memberHandles members = members.flatMap fun e => e.2.handles := by
  induction members with
  | nil => rfl
  | cons e rest ih => rw [memberHandles, ih, List.flatMap_cons]

theorem insert_handles (d : Dict Value) (key : String) (v : Value) :
    (memberHandles (Dict.insert d key v)).Subperm (memberHandles d ++ v.handles) := by
  induction d with
  | nil =>
    simp only [Dict.insert, memberHandles, List.append_nil, List.nil_append]
    exact List.Subperm.refl _
  | cons e rest ih =>
    obtain ⟨k, w⟩ := e
    simp only [Dict.insert]
    split
    · exact List.perm_append_comm.subperm
    · split
      · simp only [memberHandles]
        have hdrop : (v.handles ++ memberHandles rest).Sublist
            (w.handles ++ (v.handles ++ memberHandles rest)) := List.sublist_append_right _ _
        refine hdrop.subperm.trans (List.Perm.subperm ?_)
        rw [List.append_assoc]
        exact List.perm_append_comm.append_left _
      · simp only [memberHandles, List.append_assoc]
        exact (List.Subperm.refl _).append ih

theorem ofList_handles (d : Dict Value) (entries : List (String × Value)) :
    (memberHandles (entries.foldl (fun d e => Dict.insert d e.1 e.2) d)).Subperm
      (memberHandles d ++ memberHandles entries) := by
  induction entries generalizing d with
  | nil =>
    simp only [List.foldl_nil, memberHandles, List.append_nil]
    exact List.Subperm.refl _
  | cons e rest ih =>
    obtain ⟨k, v⟩ := e
    simp only [List.foldl_cons, memberHandles]
    refine (ih (Dict.insert d k v)).trans ?_
    rw [← List.append_assoc]
    exact (insert_handles d k v).append (List.Subperm.refl _)

theorem set_handles (items : List Value) (i : Nat) (v : Value) :
    ((items.set i v).flatMap handles).Subperm (items.flatMap handles ++ v.handles) := by
  induction items generalizing i with
  | nil => simp
  | cons w rest ih =>
    cases i with
    | zero =>
      simp only [List.set_cons_zero, List.flatMap_cons, List.append_assoc]
      have hswap : (v.handles ++ rest.flatMap handles).Perm (rest.flatMap handles ++ v.handles) :=
        List.perm_append_comm
      exact hswap.subperm.trans (List.sublist_append_right _ _).subperm
    | succ i =>
      simp only [List.set_cons_succ, List.flatMap_cons, List.append_assoc]
      exact (List.Subperm.refl _).append (ih i)

end ScriptHost.Value

namespace ScriptHost.Crossing
open Lua

def entryHandles {κ : Type} (entries : List (κ × Value)) : List Handle :=
  entries.flatMap fun e => e.2.handles

theorem puts_handles (items : Array Value) (entries : List (Datum × Value)) :
    ((entries.foldl putAt items).toList.flatMap Value.handles).Subperm
      (items.toList.flatMap Value.handles ++ entryHandles entries) := by
  induction entries generalizing items with
  | nil =>
    simp only [List.foldl_nil, entryHandles, List.flatMap_nil, List.append_nil]
    exact List.Subperm.refl _
  | cons e rest ih =>
    have hput : ((putAt items e).toList.flatMap Value.handles).Subperm
        (items.toList.flatMap Value.handles ++ e.2.handles) := by
      unfold putAt
      split
      · rw [Array.toList_setIfInBounds]
        exact Value.set_handles _ _ _
      · exact (List.sublist_append_left _ _).subperm
    simp only [List.foldl_cons, entryHandles, List.flatMap_cons, ← List.append_assoc]
    exact (ih _).trans (hput.append (List.Subperm.refl _))

theorem place_handles (size : Nat) (entries : List (Datum × Value)) :
    (Value.itemHandles (place size entries)).Subperm (entryHandles entries) := by
  have hnil : (Array.replicate size Value.nil).toList.flatMap Value.handles = [] := by
    simp [List.flatMap_replicate, Value.handles]
  have hputs := puts_handles (Array.replicate size .nil) entries
  rw [hnil, List.nil_append] at hputs
  rw [Value.itemHandles_eq, place_fold]
  exact hputs

def Issue.upcoming (s : Issue) (n : Nat) : List Handle :=
  (List.range' s.next n).map fun slot => ⟨s.session, slot⟩

theorem upcoming_nodup (s : Issue) (n : Nat) : (s.upcoming n).Nodup := by
  refine List.Nodup.map ?_ List.nodup_range'
  intro i j h
  exact congrArg Handle.slot h

theorem upcoming_add (s : Issue) (fs : List Datum) (n : Nat) :
    s.upcoming (fs.length + n) = s.upcoming fs.length ++ (s.addAll fs).upcoming n := by
  rw [Issue.upcoming, Issue.upcoming, Issue.upcoming, addAll_next, addAll_session, ← List.map_append,
    ← List.range'_append_1]

def Hands {α β : Type} (handles : β → List Handle) (convert : Conversion α β) : Prop :=
  -- what the handles of a result are taken from: those that were given out while it was made
  ∀ a s v s', convert a s = (.ok v, s') →
    ∃ fs, s' = s.addAll fs ∧ (handles v).Subperm (s.upcoming fs.length)

theorem outwardEntries_hands {κ : Type} (readKey : Datum → Except ScriptError κ)
    (convert : Conversion Datum Value) (hc : Hands Value.handles convert) :
    Hands entryHandles (outwardEntries readKey convert) := by
  intro pairs s entries s' h
  induction pairs generalizing s entries with
  | nil =>
    simp only [outwardEntries, Prod.mk.injEq, Except.ok.injEq] at h
    obtain ⟨rfl, rfl⟩ := h
    exact ⟨[], rfl, List.nil_subperm⟩
  | cons e rest ih =>
    obtain ⟨k, d⟩ := e
    simp only [outwardEntries] at h
    split at h
    · simp at h
    · split at h
      · simp at h
      · next v s₁ hv =>
        split at h
        · simp at h
        · next tail s₂ htail =>
          simp only [Prod.mk.injEq, Except.ok.injEq] at h
          obtain ⟨rfl, rfl⟩ := h
          obtain ⟨fs, rfl, hfs⟩ := hc d s v s₁ hv
          obtain ⟨gs, rfl, hgs⟩ := ih _ tail htail
          refine ⟨fs ++ gs, (addAll_append s fs gs).symm, ?_⟩
          rw [List.length_append, upcoming_add]
          exact hfs.append hgs

theorem outwardTable_hands (convert : Conversion Datum Value) (hc : Hands Value.handles convert) :
    Hands Value.handles (outwardTable convert) := by
  intro pairs s v s' h
  simp only [outwardTable, outwardItems_entries, outwardMembers_entries] at h
  split at h
  · next size _ =>
    split at h
    · next entries s₁ he =>
      simp only [Prod.mk.injEq, Except.ok.injEq] at h
      obtain ⟨rfl, rfl⟩ := h
      obtain ⟨fs, hs, hfs⟩ := outwardEntries_hands .ok convert hc pairs s entries _ he
      exact ⟨fs, hs, (place_handles size entries).trans hfs⟩
    · simp at h
  · split at h
    · next members s₁ hm =>
      simp only [Prod.mk.injEq, Except.ok.injEq] at h
      obtain ⟨rfl, rfl⟩ := h
      obtain ⟨fs, hs, hfs⟩ := outwardEntries_hands mapKey convert hc pairs s members _ hm
      refine ⟨fs, hs, List.Subperm.trans ?_ hfs⟩
      rw [entryHandles, ← Value.memberHandles_eq]
      exact Value.ofList_handles [] members
    · simp at h

theorem leaf_hands (h : Heap) (d : Datum) (s s' : Issue) (v : Value) (hd : ∀ a, d ≠ .table a)
    (hv : outwardWithin h 0 [] d s = (.ok v, s')) :
    ∃ fs, s' = s.addAll fs ∧ v.handles.Subperm (s.upcoming fs.length) := by
  cases d with
  | table a => exact absurd rfl (hd a)
  | function a =>
    simp only [outwardWithin, Issue.add, Prod.mk.injEq, Except.ok.injEq] at hv
    obtain ⟨rfl, rfl⟩ := hv
    exact ⟨[.function a], rfl, by simp [Value.handles, Issue.upcoming]⟩
  | string t =>
    simp only [outwardWithin, Prod.mk.injEq] at hv
    obtain ⟨hv, rfl⟩ := hv
    cases ht : textOf t with
    | error e => simp [ht, Except.map] at hv
    | ok text =>
      rw [ht] at hv
      obtain rfl := Except.ok.inj hv
      exact ⟨[], rfl, List.nil_subperm⟩
  | thread n => simp [outwardWithin] at hv
  | userdata n => simp [outwardWithin] at hv
  | failure n f => simp [outwardWithin] at hv
  | _ =>
    simp only [outwardWithin, Prod.mk.injEq, Except.ok.injEq] at hv
    obtain ⟨rfl, rfl⟩ := hv
    exact ⟨[], rfl, List.nil_subperm⟩

theorem outwardWithin_hands (h : Heap) (fuel : Nat) (path : List Nat) :
    Hands Value.handles (outwardWithin h fuel path) := by
  intro d s v s' hv
  induction fuel generalizing path d s v s' with
  | zero =>
    by_cases ht : ∃ a, d = .table a
    · obtain ⟨a, rfl⟩ := ht
      simp [outwardWithin] at hv
    · have hd : ∀ a, d ≠ .table a := fun a ha => ht ⟨a, ha⟩
      rw [outwardWithin_leaf h 0 path d s hd] at hv
      exact leaf_hands h d s s' v hd hv
  | succ fuel ih =>
    by_cases ht : ∃ a, d = .table a
    · obtain ⟨a, rfl⟩ := ht
      simp only [outwardWithin] at hv
      split at hv
      · simp at hv
      · exact outwardTable_hands _ (fun d s v s' => ih (a :: path) d s v s') _ s v s' hv
    · have hd : ∀ a, d ≠ .table a := fun a ha => ht ⟨a, ha⟩
      rw [outwardWithin_leaf h _ path d s hd] at hv
      exact leaf_hands h d s s' v hd hv

end ScriptHost.Crossing
