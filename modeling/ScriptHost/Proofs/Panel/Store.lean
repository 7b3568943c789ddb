import Mathlib.Data.Prod.Lex
import ScriptHost.Panel
import ScriptHost.Proofs.Dict

/-!
# Stored panels

After any edits a store has, under each id, the panel that was saved under it last, unless the id was deleted
since.  The listing has each of these panels once, the older ones first, so it tells nothing about the order
in which they were saved.
-/

set_option autoImplicit false

namespace ScriptHost

namespace PanelStore

inductive Edit where
  | save (p : Panel)
  | delete (id : String)

namespace Edit

def id : Edit → String
  | .save p => p.id
  | .delete id => id

def left? : Edit → Option Panel
  | .save p => some p
  | .delete _ => none

end Edit

def edit (s : PanelStore) : Edit → PanelStore
  | .save p => s.save p
  | .delete id => (s.delete id).2

def edited (s : PanelStore) : List Edit → PanelStore
  | [] => s
  | e :: rest => edited (edit s e) rest

def Stays (edits : List Edit) (p : Panel) : Prop :=
  -- the panel is the last one saved under its id, and the id was not deleted since
  ∃ before after, edits = before ++ .save p :: after ∧ ∀ e ∈ after, e.id ≠ p.id

def rank (p : Panel) : ℕ ×ₗ String := toLex (p.createdAt.toNat, p.id)

structure Filed (s : PanelStore) : Prop where
  ordered : Dict.Ordered s.panels
  own : ∀ e ∈ s.panels, e.2.id = e.1

theorem empty_filed : Filed empty where
  ordered := .nil
  own _ he := absurd he List.not_mem_nil

theorem edit_filed {s : PanelStore} (h : Filed s) (e : Edit) : Filed (edit s e) := by
  cases e with
  | save p =>
    refine ⟨Dict.insert_ordered _ _ _ h.ordered, fun x hx => ?_⟩
    rcases Dict.mem_insert_key _ _ _ _ hx with rfl | hx
    · rfl
    · exact h.own x hx
  | delete id => exact ⟨h.ordered.filter _, fun x hx => h.own x (List.mem_filter.mp hx).1⟩

theorem edited_filed {s : PanelStore} (h : Filed s) (edits : List Edit) : Filed (edited s edits) := by
  induction edits generalizing s with
  | nil => exact h
  | cons e rest ih => exact ih (edit_filed h e)

theorem edit_get (s : PanelStore) (e : Edit) (id : String) :
    (edit s e).get? id = if e.id = id then e.left? else s.get? id := by
  cases e with
  | save p => exact Dict.find_insert _ _ _ _
  | delete key => exact Dict.find_erase _ _ _

theorem stays_cons (e : Edit) (rest : List Edit) (p : Panel) :
    Stays (e :: rest) p ↔ Stays rest p ∨ e = .save p ∧ ∀ later ∈ rest, later.id ≠ p.id := by
  constructor
  · rintro ⟨before, after, hsplit, hafter⟩
    cases before with
    | nil =>
      obtain ⟨rfl, rfl⟩ := List.cons.inj hsplit
      exact .inr ⟨rfl, hafter⟩
    | cons x before =>
      obtain ⟨-, rfl⟩ := List.cons.inj hsplit
      exact .inl ⟨before, after, rfl, hafter⟩
  · rintro (⟨before, after, rfl, hafter⟩ | ⟨rfl, hrest⟩)
    · exact ⟨e :: before, after, rfl, hafter⟩
    · exact ⟨[], rest, rfl, hrest⟩

/-- What is found was left by the edits, or was there before and none of them is about it. -/
theorem edited_get (s : PanelStore) (edits : List Edit) (id : String) (p : Panel) :
    (edited s edits).get? id = some p ↔
      Stays edits p ∧ p.id = id ∨ s.get? id = some p ∧ ∀ e ∈ edits, e.id ≠ id := by
  induction edits generalizing s with
  | nil => simp [edited, Stays]
  | cons e rest ih =>
    rw [edited, ih, edit_get, stays_cons, List.forall_mem_cons]
    -- the first edit counts for an id only when it is about it, and then what was there before does not
    by_cases hid : e.id = id
    · rw [if_pos hid]
      cases e with
      | save q =>
        simp only [Edit.left?, Option.some.injEq, Edit.save.injEq]
        constructor
        · rintro (⟨hstays, hp⟩ | ⟨rfl, hrest⟩)
          · exact .inl ⟨.inl hstays, hp⟩
          · exact .inl ⟨.inr ⟨rfl, fun later hlater => (hrest later hlater).trans_eq hid.symm⟩, hid⟩
        · rintro (⟨hstays | ⟨rfl, hrest⟩, rfl⟩ | ⟨-, hne, -⟩)
          · exact .inl ⟨hstays, rfl⟩
          · exact .inr ⟨rfl, hrest⟩
          · exact absurd hid hne
      | delete key => simp [Edit.left?, hid]
    · rw [if_neg hid]
      constructor
      · rintro (⟨hstays, hp⟩ | ⟨hs, hrest⟩)
        · exact .inl ⟨.inl hstays, hp⟩
        · exact .inr ⟨hs, hid, hrest⟩
      · rintro (⟨hstays | ⟨rfl, -⟩, hp⟩ | ⟨hs, -, hrest⟩)
        · exact .inl ⟨hstays, hp⟩
        · exact absurd hp hid
        · exact .inr ⟨hs, hrest⟩

theorem edited_empty_get (edits : List Edit) (id : String) (p : Panel) :
    (edited empty edits).get? id = some p ↔ Stays edits p ∧ p.id = id := by
  rw [edited_get, or_iff_left]
  rintro ⟨hnone, -⟩
  cases hnone

theorem before_iff (p q : Panel) : p.before q = true ↔ rank p ≤ rank q := by
  rw [rank, rank, Prod.Lex.toLex_le_toLex, UInt64.toNat_inj, ← UInt64.lt_iff_toNat_lt]
  simp [Panel.before]

theorem rank_inj {p q : Panel} (h : rank p = rank q) : p.id = q.id := congrArg (fun r => (ofLex r).2) h

theorem list_perm (s : PanelStore) : s.list.Perm (Dict.values s.panels) := List.mergeSort_perm _ _

theorem values_ids {s : PanelStore} (h : Filed s) : (Dict.values s.panels).map (·.id) = Dict.keys s.panels := by
  rw [Dict.values, Dict.keys, List.map_map]
  exact List.map_congr_left h.own

theorem list_ids_nodup {s : PanelStore} (h : Filed s) : (s.list.map (·.id)).Nodup := by
  rw [((list_perm s).map _).nodup_iff, values_ids h]
  exact Dict.ordered_nodup h.ordered

theorem list_sorted (s : PanelStore) : s.list.Pairwise fun p q => rank p ≤ rank q := by
  have htrans : ∀ p q r : Panel, p.before q = true → q.before r = true → p.before r = true := by
    intro p q r
    simpa only [before_iff] using le_trans
  have htotal : ∀ p q : Panel, (p.before q || q.before p) = true := by
    intro p q
    simpa only [Bool.or_eq_true, before_iff] using le_total _ _
  exact (List.pairwise_mergeSort htrans htotal _).imp fun h => (before_iff _ _).mp h

/-- There are no ties, since panels of one time have different ids. -/
theorem list_increasing {s : PanelStore} (h : Filed s) : s.list.Pairwise fun p q => rank p < rank q := by
  have hids : s.list.Pairwise fun p q => p.id ≠ q.id := List.pairwise_map.mp (list_ids_nodup h)
  exact ((list_sorted s).and hids).imp fun hpq => lt_of_le_of_ne hpq.1 fun heq => hpq.2 (rank_inj heq)

theorem mem_list {s : PanelStore} (h : Filed s) (p : Panel) : p ∈ s.list ↔ s.get? p.id = some p := by
  rw [(list_perm s).mem_iff, get?, Dict.find_iff (Dict.ordered_nodup h.ordered), Dict.values, List.mem_map]
  constructor
  · rintro ⟨⟨key, q⟩, hq, rfl⟩
    obtain rfl : q.id = key := h.own _ hq
    exact hq
  · intro hp
    exact ⟨_, hp, rfl⟩

theorem list_nodup {s : PanelStore} (h : Filed s) : s.list.Nodup := (list_ids_nodup h).of_map

/-- Stores with the same panels have one listing. -/
theorem list_ext {s t : PanelStore} (hs : Filed s) (ht : Filed t) (hmem : ∀ p, p ∈ s.list ↔ p ∈ t.list) :
    s.list = t.list := by
  have hperm := (List.perm_ext_iff_of_nodup (list_nodup hs) (list_nodup ht)).mpr hmem
  exact hperm.eq_of_pairwise (fun _ _ _ _ hpq hqp => absurd hqp (lt_asymm hpq)) (list_increasing hs)
    (list_increasing ht)

theorem delete_iff (s : PanelStore) (id : String) : (s.delete id).1 = true ↔ ∃ p, s.get? id = some p :=
  Option.isSome_iff_exists

theorem mem_edited_list (edits : List Edit) (p : Panel) :
    p ∈ (edited empty edits).list ↔ Stays edits p := by
  rw [mem_list (edited_filed empty_filed edits), edited_empty_get, and_iff_left rfl]

/-- After any edits of an empty store: what is found under an id is the panel that stays under it, deleting
tells whether there is one, and the listing has exactly the panels that stay, each once and in strict order.
So edits after which the same panels stay lead to one listing. -/
theorem store_keeps_last (edits : List Edit) :
    let s := edited empty edits
    (∀ id p, s.get? id = some p ↔ Stays edits p ∧ p.id = id) ∧
      (∀ id, (s.delete id).1 = true ↔ ∃ p, Stays edits p ∧ p.id = id) ∧
      (∀ p, p ∈ s.list ↔ Stays edits p) ∧ s.list.Nodup ∧ (s.list.Pairwise fun p q => rank p < rank q) ∧
      ∀ others, (∀ p, Stays others p ↔ Stays edits p) → (edited empty others).list = s.list := by
  intro s
  have hs : Filed s := edited_filed empty_filed edits
  refine ⟨edited_empty_get edits, fun id => ?_, mem_edited_list edits, list_nodup hs, list_increasing hs, ?_⟩
  · simp only [delete_iff, s, edited_empty_get]
  · intro others h
    refine list_ext (edited_filed empty_filed others) hs fun p => ?_
    rw [mem_edited_list, mem_edited_list, h]

def rearranged : List Edit := [
  -- panels of one time, one panel that is deleted and one that is saved again with a later time
  .save ⟨"b", "B", "", 5⟩, .save ⟨"a", "old", "", 1⟩, .save ⟨"c", "C", "", 2⟩, .save ⟨"a", "A", "x", 5⟩,
  .delete "c"]

theorem store_keeps_rearranged :
    let others : List Edit := [.save ⟨"a", "A", "x", 5⟩, .save ⟨"b", "B", "", 5⟩]
    (∀ p, Stays others p ↔ Stays rearranged p) ∧
      (edited empty others).list = (edited empty rearranged).list ∧
      Stays rearranged ⟨"a", "A", "x", 5⟩ ∧ ¬ Stays rearranged ⟨"a", "old", "", 1⟩ := by
  intro others
  obtain ⟨hget, -, -, -, -, hlist⟩ := store_keeps_last rearranged
  have hpanels : (edited empty others).panels = (edited empty rearranged).panels := by decide +kernel
  have hsame : ∀ p, Stays others p ↔ Stays rearranged p := by
    intro p
    rw [← mem_edited_list, ← mem_edited_list, list, list, hpanels]
  refine ⟨hsame, hlist others hsame, ((hget "a" _).mp (by decide +kernel)).1, fun hstays => ?_⟩
  exact absurd ((hget "a" _).mpr ⟨hstays, rfl⟩) (by decide +kernel)

end PanelStore

end ScriptHost
