import ScriptHost.Graph.Registry
import ScriptHost.Proofs.Dict

/-!
# The registry is an ordered map

A registry finds its types by their ids and keeps the order of the ids apart from them.  A `Lineup` is
the map that both stand for: the types in their order.  Every change of a registry updates the two
halves so that they still stand for one lineup, the one that the same change makes of the lineup.
-/

set_option autoImplicit false

namespace ScriptHost

theorem Port.firstRepeatAfter_none (seen : List String) (ports : List Port) :
    firstRepeatAfter seen ports = none ↔
      (∀ p ∈ ports, p.id ∉ seen) ∧ (ports.map (·.id)).Nodup := by
  induction ports generalizing seen with
  | nil => simp [firstRepeatAfter]
  | cons p rest ih =>
    by_cases hp : p.id ∈ seen
    · simp [firstRepeatAfter, hp]
    · have happart : (∀ q ∈ rest, q.id ∉ p.id :: seen) ↔
          (∀ q ∈ rest, q.id ∉ seen) ∧ p.id ∉ rest.map (·.id) := by
        simp only [List.mem_cons, not_or, List.mem_map, not_exists, not_and]
        constructor
        · exact fun h => ⟨fun q hq => (h q hq).2, fun q hq => (h q hq).1⟩
        · exact fun h q hq => ⟨h.2 q hq, h.1 q hq⟩
      rw [firstRepeatAfter, if_neg hp, ih, happart, List.map_cons, List.nodup_cons,
        List.forall_mem_cons]
      simp only [hp, not_false_eq_true, true_and, and_assoc]

theorem Port.checkDistinct_iff (owner : String) (ports : List Port) :
    checkDistinct owner ports = .ok () ↔ (ports.map (·.id)).Nodup := by
  have hnone := firstRepeatAfter_none [] ports
  simp only [List.not_mem_nil, not_false_eq_true, implies_true, true_and] at hnone
  rw [← hnone, checkDistinct, firstRepeat?]
  cases firstRepeatAfter [] ports <;> simp

def NodeType.PortsDistinct (t : NodeType) : Prop := ((t.inputs ++ t.outputs).map (·.id)).Nodup

instance (t : NodeType) : Decidable t.PortsDistinct :=
  inferInstanceAs (Decidable ((t.inputs ++ t.outputs).map (·.id)).Nodup)

theorem NodeType.checkPorts_iff (t : NodeType) : t.checkPorts = .ok () ↔ t.PortsDistinct :=
  Port.checkDistinct_iff t.id (t.inputs ++ t.outputs)

namespace Registry

inductive Change where
  | register (t : NodeType)
  | unregister (id : String)
  | teardown

def change (r : Registry) : Change → Registry
  | .register t => (r.register t).toOption.getD r
  | .unregister id => (r.unregister id).2
  | .teardown => r.teardown

def changed (r : Registry) : List Change → Registry
  | [] => r
  | c :: rest => changed (change r c) rest

inductive Opening where
  | builtins
  | bare

def opened : Opening → Registry
  | .builtins => seeded
  | .bare => empty

end Registry

abbrev Lineup := List NodeType

namespace Lineup

open Registry (Change Opening)

def place (l : Lineup) (t : NodeType) : Lineup :=
  -- a type takes the place of the one that has its id, and the last place when none has
  if t.id ∈ l.map (·.id) then l.map fun u => if u.id = t.id then t else u else l ++ [t]

def without (l : Lineup) (id : String) : Lineup := l.filter (·.id != id)

def change (l : Lineup) : Change → Lineup
  | .register t =>
    if (∃ u ∈ l, u.id = t.id ∧ u.isCustom = false) ∨ ¬ t.PortsDistinct then l
    else l.place { t with custom := some true }
  | .unregister id => if ∃ u ∈ l, u.id = id ∧ u.isCustom = true then l.without id else l
  | .teardown => l.filter (!·.isCustom)

def changed (l : Lineup) : List Change → Lineup
  | [] => l
  | c :: rest => changed (change l c) rest

def opened : Opening → Lineup
  | .builtins => palette
  | .bare => []

theorem place_new {l : Lineup} {t : NodeType} (h : t.id ∉ l.map (·.id)) : l.place t = l ++ [t] :=
  if_neg h

/-- A type that was taken out and comes back is the last one. -/
theorem register_again {l : Lineup} {t : NodeType} (h : ∃ u ∈ l, u.id = t.id ∧ u.isCustom = true)
    (ht : t.PortsDistinct) : changed l [.unregister t.id, .register t] =
      l.without t.id ++ [{ t with custom := some true }] := by
  have habsent : ∀ u ∈ l.without t.id, u.id ≠ t.id := by
    intro u hu
    simpa using (List.mem_filter.mp hu).2
  have hfree : ¬ ((∃ u ∈ l.without t.id, u.id = t.id ∧ u.isCustom = false) ∨ ¬ t.PortsDistinct) := by
    rintro (⟨u, hu, hid, -⟩ | hports)
    · exact habsent u hu hid
    · exact hports ht
  have hnew : t.id ∉ (l.without t.id).map (·.id) := by
    intro hid
    obtain ⟨u, hu, heq⟩ := List.mem_map.mp hid
    exact habsent u hu heq
  have htaken : change l (.unregister t.id) = l.without t.id := if_pos h
  have hback : change (l.without t.id) (.register t) =
      l.without t.id ++ [{ t with custom := some true }] := by
    rw [change, if_neg hfree]
    exact place_new hnew
  rw [changed, changed, changed, htaken, hback]

end Lineup

namespace Registry

/-- The order lists the ids of the types, each once, and every type is found under its own id. -/
structure Kept (r : Registry) : Prop where
  sorted : Dict.Ordered r.types
  once : r.order.Nodup
  listed : ∀ id, id ∈ r.order ↔ (r.find? id).isSome = true
  named : ∀ id t, r.find? id = some t → t.id = id
  distinct : ∀ id t, r.find? id = some t → t.PortsDistinct

theorem listed_find {r : Registry} (h : Kept r) {id : String} (hid : id ∈ r.order) :
    ∃ t, r.find? id = some t ∧ t.id = id := by
  obtain ⟨t, ht⟩ := Option.isSome_iff_exists.mp ((h.listed id).mp hid)
  exact ⟨t, ht, h.named id t ht⟩

theorem all_ids {r : Registry} (h : Kept r) : r.all.map (·.id) = r.order := by
  have hnames : ∀ id ∈ r.order, (r.find? id).map (·.id) = some id := by
    intro id hid
    obtain ⟨t, ht, hname⟩ := listed_find h hid
    rw [ht, Option.map_some, hname]
  rw [all, List.map_filterMap, List.filterMap_congr hnames, List.filterMap_some]

theorem all_nodup {r : Registry} (h : Kept r) : (r.all.map (·.id)).Nodup := by
  rw [all_ids h]
  exact h.once

theorem mem_all {r : Registry} (h : Kept r) (t : NodeType) : t ∈ r.all ↔ r.find? t.id = some t := by
  rw [all, List.mem_filterMap]
  constructor
  · rintro ⟨id, -, ht⟩
    rw [h.named id t ht]
    exact ht
  · intro ht
    exact ⟨t.id, (h.listed t.id).mpr (by rw [ht]; rfl), ht⟩

theorem find_iff {r : Registry} (h : Kept r) (id : String) (t : NodeType) :
    r.find? id = some t ↔ t ∈ r.all ∧ t.id = id := by
  rw [mem_all h]
  constructor
  · intro ht
    have hname := h.named id t ht
    exact ⟨hname ▸ ht, hname⟩
  · rintro ⟨ht, rfl⟩
    exact ht

/-- What is found under an id is what the listing has there. -/
theorem find_all {r : Registry} (h : Kept r) (id : String) :
    r.find? id = r.all.find? (·.id == id) := by
  cases hl : r.all.find? (·.id == id) with
  | some t =>
    rw [find_iff h]
    exact ⟨List.mem_of_find?_eq_some hl, by simpa using List.find?_some hl⟩
  | none =>
    rw [← Option.not_isSome_iff_eq_none, Option.isSome_iff_exists]
    rintro ⟨t, ht⟩
    obtain ⟨hmem, hid⟩ := (find_iff h id t).mp ht
    simpa [hid] using List.find?_eq_none.mp hl t hmem

theorem mem_types {r : Registry} (h : Kept r) (id : String) (t : NodeType) :
    (id, t) ∈ r.types ↔ r.find? id = some t :=
  (Dict.find_iff (Dict.ordered_nodup h.sorted) id t).symm

/-- The listing has every type that is kept, each once. -/
theorem all_perm {r : Registry} (h : Kept r) : r.all.Perm (Dict.values r.types) := by
  have hkeys : (Dict.values r.types).map (·.id) = Dict.keys r.types := by
    rw [Dict.values, Dict.keys, List.map_map]
    apply List.map_congr_left
    intro e he
    exact h.named e.1 e.2 ((mem_types h e.1 e.2).mp he)
  have hvalues : (Dict.values r.types).Nodup := by
    apply List.Nodup.of_map (·.id)
    rw [hkeys]
    exact Dict.ordered_nodup h.sorted
  rw [List.perm_ext_iff_of_nodup (List.Nodup.of_map _ (all_nodup h)) hvalues]
  intro t
  rw [mem_all h, Dict.values, List.mem_map]
  constructor
  · exact fun ht => ⟨(t.id, t), (mem_types h t.id t).mpr ht, rfl⟩
  · rintro ⟨⟨id, u⟩, hmem, rfl⟩
    have hfind := (mem_types h id u).mp hmem
    rw [h.named id u hfind]
    exact hfind

theorem size_all {r : Registry} (h : Kept r) : r.size = r.all.length := by
  rw [(all_perm h).length_eq, Dict.values, List.length_map, size]

@[simp] theorem find_put (r : Registry) (t : NodeType) (id : String) :
    (r.put t).find? id = if t.id = id then some t else r.find? id :=
  Dict.find_insert r.types t.id id t

theorem put_order {r : Registry} (h : Kept r) (t : NodeType) :
    (r.put t).order = if t.id ∈ r.order then r.order else r.order ++ [t.id] := by
  have hlisted : Dict.contains r.types t.id = true ↔ t.id ∈ r.order := (h.listed t.id).symm
  simp only [put, hlisted]

theorem found_put {r : Registry} {t u : NodeType} {id : String}
    (h : (r.put t).find? id = some u) : u = t ∧ t.id = id ∨ r.find? id = some u := by
  rw [find_put] at h
  by_cases hid : t.id = id
  · rw [if_pos hid] at h
    exact .inl ⟨(Option.some.inj h).symm, hid⟩
  · rw [if_neg hid] at h
    exact .inr h

theorem put_kept {r : Registry} (h : Kept r) {t : NodeType} (ht : t.PortsDistinct) :
    Kept (r.put t) where
  sorted := Dict.insert_ordered r.types t.id t h.sorted
  once := by
    rw [put_order h]
    by_cases hin : t.id ∈ r.order
    · rw [if_pos hin]
      exact h.once
    · rw [if_neg hin]
      exact h.once.append (List.nodup_singleton _) (by simpa using hin)
  listed id := by
    rw [find_put, put_order h]
    by_cases hid : t.id = id
    · subst hid
      by_cases hin : t.id ∈ r.order <;> simp [hin]
    · rw [if_neg hid, ← h.listed]
      by_cases hin : t.id ∈ r.order <;> simp [hin, Ne.symm hid]
  named id u hu := by
    rcases found_put hu with ⟨rfl, hid⟩ | hu
    · exact hid
    · exact h.named id u hu
  distinct id u hu := by
    rcases found_put hu with ⟨rfl, -⟩ | hu
    · exact ht
    · exact h.distinct id u hu

theorem put_all {r : Registry} (h : Kept r) (t : NodeType) : (r.put t).all = Lineup.place r.all t := by
  rw [all, put_order h, Lineup.place, all_ids h]
  by_cases hin : t.id ∈ r.order
  · rw [if_pos hin, if_pos hin, all, List.map_filterMap]
    apply List.filterMap_congr
    intro id hid
    obtain ⟨u, hu, hname⟩ := listed_find h hid
    rw [find_put, hu, Option.map_some, hname]
    by_cases heq : t.id = id
    · rw [if_pos heq, if_pos heq.symm]
    · rw [if_neg heq, if_neg (Ne.symm heq)]
  · have hbefore : r.order.filterMap (r.put t).find? = r.all := by
      apply List.filterMap_congr
      intro id hid
      rw [find_put, if_neg]
      rintro rfl
      exact hin hid
    rw [if_neg hin, if_neg hin, List.filterMap_append, hbefore]
    simp

def drop (r : Registry) (id : String) : Registry :=
  { types := Dict.erase r.types id, order := r.order.filter (· != id) }

@[simp] theorem find_drop (r : Registry) (id other : String) :
    (r.drop id).find? other = if id = other then none else r.find? other :=
  Dict.find_erase r.types id other

/-- Fewer types, with their ids in the same order, still agree. -/
theorem kept_fewer {r r' : Registry} (h : Kept r) (hsorted : Dict.Ordered r'.types)
    (horder : r'.order.Sublist r.order) (hlisted : ∀ id, id ∈ r'.order ↔ (r'.find? id).isSome = true)
    (hfind : ∀ id t, r'.find? id = some t → r.find? id = some t) : Kept r' where
  sorted := hsorted
  once := h.once.sublist horder
  listed := hlisted
  named id t ht := h.named id t (hfind id t ht)
  distinct id t ht := h.distinct id t (hfind id t ht)

theorem drop_kept {r : Registry} (h : Kept r) (id : String) : Kept (r.drop id) := by
  have hlisted : ∀ other, other ∈ (r.drop id).order ↔ ((r.drop id).find? other).isSome = true := by
    intro other
    rw [find_drop, drop, List.mem_filter, h.listed]
    by_cases hid : id = other
    · simp [hid]
    · simp [hid, Ne.symm hid]
  have hfind : ∀ other t, (r.drop id).find? other = some t → r.find? other = some t := by
    intro other t ht
    rw [find_drop] at ht
    by_cases hid : id = other
    · simp [hid] at ht
    · rwa [if_neg hid] at ht
  exact kept_fewer h (h.sorted.sublist List.filter_sublist) List.filter_sublist hlisted hfind

theorem drop_all {r : Registry} (h : Kept r) (id : String) : (r.drop id).all = Lineup.without r.all id := by
  rw [all, drop, List.filterMap_filter, Lineup.without, all, List.filter_filterMap]
  apply List.filterMap_congr
  intro other hother
  obtain ⟨t, ht, hname⟩ := listed_find h hother
  have hfind := find_drop r id other
  rw [drop] at hfind
  rw [hfind, ht, Option.filter_some, hname]
  by_cases hid : id = other
  · simp [hid]
  · simp [hid, Ne.symm hid]

theorem find_teardown {r : Registry} (h : Kept r) (id : String) :
    r.teardown.find? id = (r.find? id).filter (!·.isCustom) :=
  Dict.find_filter (Dict.ordered_nodup h.sorted) (!·.isCustom) id

theorem teardown_kept {r : Registry} (h : Kept r) : Kept r.teardown := by
  have hlisted : ∀ id, id ∈ r.teardown.order ↔ (r.teardown.find? id).isSome = true := by
    intro id
    have hmem : id ∈ r.teardown.order ↔ id ∈ r.order ∧ (r.teardown.find? id).isSome = true :=
      List.mem_filter
    rw [hmem, and_iff_right_iff_imp, h.listed, find_teardown h]
    exact Option.isSome_of_isSome_filter _ _
  have hfind : ∀ id t, r.teardown.find? id = some t → r.find? id = some t := by
    intro id t ht
    rw [find_teardown h] at ht
    exact (Option.filter_eq_some_iff.mp ht).1
  exact kept_fewer h (h.sorted.sublist List.filter_sublist) List.filter_sublist hlisted hfind

theorem teardown_all {r : Registry} (h : Kept r) : r.teardown.all = r.all.filter (!·.isCustom) := by
  have horder : r.teardown.order = r.order.filter fun id => (r.teardown.find? id).isSome := rfl
  rw [all, horder, List.filterMap_filter, all, List.filter_filterMap]
  apply List.filterMap_congr
  intro id _
  rw [← find_teardown h]
  cases r.teardown.find? id <;> rfl

theorem isBuiltin_iff {r : Registry} (h : Kept r) (id : String) :
    r.isBuiltin id = true ↔ ∃ t ∈ r.all, t.id = id ∧ t.isCustom = false := by
  have hfind : r.isBuiltin id = true ↔ ∃ t, r.find? id = some t ∧ t.isCustom = false := by
    unfold isBuiltin
    cases r.find? id <;> simp
  rw [hfind]
  constructor
  · rintro ⟨t, ht, hcustom⟩
    obtain ⟨hmem, hid⟩ := (find_iff h id t).mp ht
    exact ⟨t, hmem, hid, hcustom⟩
  · rintro ⟨t, hmem, hid, hcustom⟩
    exact ⟨t, (find_iff h id t).mpr ⟨hmem, hid⟩, hcustom⟩

/-- The three ends of a registration. -/
theorem register_ends (r : Registry) (t : NodeType) :
    r.isBuiltin t.id = true ∧ r.register t = .error (.protectedNodeType t.id) ∨
      r.isBuiltin t.id = false ∧
        (¬ t.PortsDistinct ∧ (∃ fault, r.register t = .error fault) ∨
          t.PortsDistinct ∧ r.register t = .ok (r.put { t with custom := some true })) := by
  unfold register
  cases r.isBuiltin t.id with
  | true => exact .inl ⟨rfl, rfl⟩
  | false =>
    refine .inr ⟨rfl, ?_⟩
    rw [← t.checkPorts_iff]
    cases t.checkPorts with
    | error fault => exact .inl ⟨by simp, fault, rfl⟩
    | ok u => exact .inr ⟨rfl, rfl⟩

/-- The two ends of an unregistration. -/
theorem unregister_ends (r : Registry) (id : String) :
    (∃ t, r.find? id = some t ∧ t.isCustom = true) ∧ r.unregister id = (true, r.drop id) ∨
      (¬ ∃ t, r.find? id = some t ∧ t.isCustom = true) ∧ r.unregister id = (false, r) := by
  unfold unregister
  cases r.find? id with
  | none => exact .inr ⟨by simp, rfl⟩
  | some t =>
    cases hcustom : t.isCustom with
    | true => exact .inl ⟨⟨t, rfl, hcustom⟩, by simp [hcustom, drop]⟩
    | false => exact .inr ⟨by simp [hcustom], by simp [hcustom]⟩

theorem change_register (r : Registry) (t : NodeType) :
    change r (.register t) = if r.isBuiltin t.id = true ∨ ¬ t.PortsDistinct then r
      else r.put { t with custom := some true } := by
  have hchange : change r (.register t) = (r.register t).toOption.getD r := rfl
  rw [hchange]
  rcases register_ends r t with ⟨hbuiltin, h⟩ | ⟨hbuiltin, ⟨hports, fault, h⟩ | ⟨hports, h⟩⟩
  · rw [h, if_pos (.inl hbuiltin)]
    rfl
  · rw [h, if_pos (.inr hports)]
    rfl
  · rw [h, if_neg (by simp [hbuiltin, hports])]
    rfl

theorem change_unregister {r : Registry} (h : Kept r) (id : String) :
    change r (.unregister id) = if ∃ t ∈ r.all, t.id = id ∧ t.isCustom = true then r.drop id
      else r := by
  have hcustom : (∃ t ∈ r.all, t.id = id ∧ t.isCustom = true) ↔
      ∃ t, r.find? id = some t ∧ t.isCustom = true := by
    simp only [find_iff h, and_assoc]
  rcases unregister_ends r id with ⟨hfound, heq⟩ | ⟨hnone, heq⟩
  · rw [change, heq, if_pos (hcustom.mpr hfound)]
  · rw [change, heq, if_neg fun hfound => hnone (hcustom.mp hfound)]

theorem change_kept {r : Registry} (h : Kept r) (c : Change) : Kept (change r c) := by
  cases c with
  | register t =>
    rw [change_register]
    split
    · exact h
    · next hok => exact put_kept h (not_not.mp (not_or.mp hok).2)
  | unregister id =>
    rw [change_unregister h]
    split
    · exact drop_kept h id
    · exact h
  | teardown => exact teardown_kept h

theorem change_all {r : Registry} (h : Kept r) (c : Change) :
    (change r c).all = Lineup.change r.all c := by
  cases c with
  | register t =>
    simp only [change_register, isBuiltin_iff h, Lineup.change]
    split
    · rfl
    · exact put_all h _
  | unregister id =>
    rw [change_unregister h, Lineup.change]
    split
    · exact drop_all h id
    · rfl
  | teardown => exact teardown_all h

theorem changed_kept {r : Registry} (h : Kept r) (changes : List Change) : Kept (changed r changes) := by
  induction changes generalizing r with
  | nil => exact h
  | cons c rest ih => exact ih (change_kept h c)

theorem changed_all {r : Registry} (h : Kept r) (changes : List Change) :
    (changed r changes).all = Lineup.changed r.all changes := by
  induction changes generalizing r with
  | nil => rfl
  | cons c rest ih =>
    rw [changed, ih (change_kept h c), change_all h, Lineup.changed]

theorem puts_kept {r : Registry} (h : Kept r) (types : List NodeType)
    (hports : ∀ t ∈ types, t.PortsDistinct) : Kept (types.foldl put r) := by
  induction types generalizing r with
  | nil => exact h
  | cons t rest ih =>
    obtain ⟨ht, hrest⟩ := List.forall_mem_cons.mp hports
    exact ih (put_kept h ht) hrest

theorem puts_all {r : Registry} (h : Kept r) (types : List NodeType)
    (hports : ∀ t ∈ types, t.PortsDistinct) (hids : ((r.all ++ types).map (·.id)).Nodup) :
    (types.foldl put r).all = r.all ++ types := by
  induction types generalizing r with
  | nil => exact (List.append_nil _).symm
  | cons t rest ih =>
    obtain ⟨ht, hrest⟩ := List.forall_mem_cons.mp hports
    have hnew : t.id ∉ r.all.map (·.id) := by
      intro hold
      rw [List.map_append] at hids
      exact (List.nodup_append.mp hids).2.2 t.id hold t.id (by simp) rfl
    have hput : (r.put t).all = r.all ++ [t] := by rw [put_all h, Lineup.place_new hnew]
    rw [List.foldl_cons, ih (put_kept h ht) hrest (by simpa [hput] using hids), hput,
      List.append_assoc, List.singleton_append]

theorem palette_ids : (palette.map (·.id)).Nodup := by decide +kernel

theorem palette_ports : ∀ t ∈ palette, t.PortsDistinct := by decide +kernel

theorem empty_kept : Kept empty where
  sorted := .nil
  once := List.nodup_nil
  listed _ := iff_of_false List.not_mem_nil Bool.false_ne_true
  named _ _ ht := absurd ht (Option.some_ne_none _).symm
  distinct _ _ ht := absurd ht (Option.some_ne_none _).symm

theorem opened_kept (o : Opening) : Kept (opened o) := by
  cases o with
  | builtins => exact puts_kept empty_kept palette palette_ports
  | bare => exact empty_kept

theorem opened_all (o : Opening) : (opened o).all = Lineup.opened o := by
  cases o with
  | builtins => exact puts_all empty_kept palette palette_ports palette_ids
  | bare => rfl

/-- After any changes the order lists the ids of the types, each once; every type is under its own id
and listed once; and the listing is the lineup that the same changes make of the one at the start. -/
theorem changed_lineup (o : Opening) (changes : List Change) :
    let r := changed (opened o) changes
    let lineup := Lineup.changed (Lineup.opened o) changes
    (r.order.Nodup ∧ (Dict.keys r.types).Nodup ∧ ∀ id, id ∈ r.order ↔ id ∈ Dict.keys r.types) ∧
      (∀ id t, (id, t) ∈ r.types → t.id = id ∧ t.PortsDistinct) ∧
      (r.size = r.all.length ∧ r.all.Perm (Dict.values r.types)) ∧
      (r.all = lineup ∧ ∀ id, r.find? id = lineup.find? (·.id == id)) ∧
      ∀ t, (∃ u ∈ r.all, u.id = t.id ∧ u.isCustom = true) → t.PortsDistinct →
        (changed r [.unregister t.id, .register t]).all =
          Lineup.without r.all t.id ++ [{ t with custom := some true }] := by
  intro r lineup
  have hkept : Kept r := changed_kept (opened_kept o) changes
  have hall : r.all = lineup := by
    show (changed (opened o) changes).all = _
    rw [changed_all (opened_kept o), opened_all]
  have hkeys : ∀ id, id ∈ r.order ↔ id ∈ Dict.keys r.types := by
    intro id
    rw [hkept.listed, Option.isSome_iff_exists, Dict.keys, List.mem_map]
    constructor
    · rintro ⟨t, ht⟩
      exact ⟨(id, t), (mem_types hkept id t).mpr ht, rfl⟩
    · rintro ⟨⟨_, t⟩, ht, rfl⟩
      exact ⟨t, (mem_types hkept _ t).mp ht⟩
  have hown : ∀ id t, (id, t) ∈ r.types → t.id = id ∧ t.PortsDistinct := by
    intro id t ht
    have hfind := (mem_types hkept id t).mp ht
    exact ⟨hkept.named id t hfind, hkept.distinct id t hfind⟩
  have hlookup : ∀ id, r.find? id = lineup.find? (·.id == id) := by
    intro id
    rw [find_all hkept, hall]
  have hagain : ∀ t, (∃ u ∈ r.all, u.id = t.id ∧ u.isCustom = true) → t.PortsDistinct →
      (changed r [.unregister t.id, .register t]).all =
        Lineup.without r.all t.id ++ [{ t with custom := some true }] := by
    intro t hcustom ht
    rw [changed_all hkept]
    exact Lineup.register_again hcustom ht
  exact ⟨⟨hkept.once, Dict.ordered_nodup hkept.sorted, hkeys⟩, hown,
    ⟨size_all hkept, all_perm hkept⟩, ⟨hall, hlookup⟩, hagain⟩

-- a type that is registered over keeps its place; one that comes back is last
example :
    let t (id : String) : NodeType := .make id id .action
    (changed empty [.register (t "a"), .register (t "b"), .register (t "a")]).order = ["a", "b"] ∧
      (changed empty [.register (t "a"), .register (t "b"), .unregister "a", .register (t "a")]).order =
        ["b", "a"] := by
  decide +kernel

end Registry

end ScriptHost
