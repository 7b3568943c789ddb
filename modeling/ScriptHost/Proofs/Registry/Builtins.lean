import ScriptHost.Proofs.Registry.Lineup

/-!
# Built-in types stay

What tells a built-in type from a custom one is a mark that a definition may carry as it likes.  The
registry asks the type it holds and marks what it takes in, so of the types it holds exactly those of
the palette are without the mark, and none of them is ever replaced, moved or taken out.
-/

set_option autoImplicit false

namespace ScriptHost.Registry

def Guarded (l : Lineup) : Prop := ∃ later, l = palette ++ later ∧ ∀ t ∈ later, t.isCustom = true

def paletteIds : List String := palette.map (·.id)

theorem palette_builtin : ∀ t ∈ palette, t.isCustom = false := by decide +kernel

theorem place_guarded {l : Lineup} (h : Guarded l) {t : NodeType} (hid : t.id ∉ paletteIds)
    (ht : t.isCustom = true) : Guarded (l.place t) := by
  obtain ⟨later, rfl, hlater⟩ := h
  by_cases hin : t.id ∈ (palette ++ later).map (·.id)
  · have hsame : ∀ u ∈ palette, (if u.id = t.id then t else u) = u := by
      intro u hu
      rw [if_neg]
      intro heq
      exact hid (heq ▸ List.mem_map_of_mem hu)
    refine ⟨later.map fun u => if u.id = t.id then t else u, ?_, ?_⟩
    · rw [Lineup.place, if_pos hin, List.map_append, List.map_congr_left hsame, List.map_id']
    · intro u hu
      obtain ⟨v, hv, rfl⟩ := List.mem_map.mp hu
      split
      · exact ht
      · exact hlater v hv
  · refine ⟨later ++ [t], ?_, ?_⟩
    · rw [Lineup.place_new hin, List.append_assoc]
    · intro u hu
      rcases List.mem_append.mp hu with hu | hu
      · exact hlater u hu
      · rw [List.mem_singleton.mp hu]
        exact ht

theorem without_guarded {l : Lineup} (h : Guarded l) {id : String} (hid : id ∉ paletteIds) :
    Guarded (l.without id) := by
  obtain ⟨later, rfl, hlater⟩ := h
  have hstay : ∀ u ∈ palette, (u.id != id) = true := by
    intro u hu
    rw [bne_iff_ne]
    rintro rfl
    exact hid (List.mem_map_of_mem hu)
  refine ⟨Lineup.without later id, ?_, fun t ht => hlater t (List.mem_of_mem_filter ht)⟩
  rw [Lineup.without, List.filter_append, List.filter_eq_self.mpr hstay]
  rfl

theorem teardown_guarded {l : Lineup} (h : Guarded l) : l.filter (!·.isCustom) = palette := by
  obtain ⟨later, rfl, hlater⟩ := h
  have hstay : ∀ t ∈ palette, (!t.isCustom) = true := by
    intro t ht
    rw [palette_builtin t ht]
    rfl
  have hgo : ∀ t ∈ later, ¬ (!t.isCustom) = true := by
    intro t ht
    rw [hlater t ht]
    exact Bool.false_ne_true
  rw [List.filter_append, List.filter_eq_self.mpr hstay, List.filter_eq_nil_iff.mpr hgo,
    List.append_nil]

/-- The types without the mark are those of the palette. -/
theorem builtin_iff {l : Lineup} (h : Guarded l) (t : NodeType) :
    t ∈ l ∧ t.isCustom = false ↔ t ∈ palette := by
  obtain ⟨later, rfl, hlater⟩ := h
  rw [List.mem_append]
  constructor
  · rintro ⟨ht | ht, hcustom⟩
    · exact ht
    · rw [hlater t ht] at hcustom
      exact absurd hcustom.symm Bool.false_ne_true
  · exact fun ht => ⟨.inl ht, palette_builtin t ht⟩

/-- The types with the mark are those that have no id of the palette. -/
theorem custom_iff {l : Lineup} (h : Guarded l) (hids : (l.map (·.id)).Nodup) {t : NodeType}
    (ht : t ∈ l) : t.isCustom = true ↔ t.id ∉ paletteIds := by
  constructor
  · intro hcustom hid
    obtain ⟨u, hu, heq⟩ := List.mem_map.mp hid
    obtain ⟨hmem, hbuiltin⟩ := (builtin_iff h u).mpr hu
    have hsame : u = t := List.inj_on_of_nodup_map hids hmem ht heq
    rw [hsame, hcustom] at hbuiltin
    exact absurd hbuiltin.symm Bool.false_ne_true
  · intro hid
    rw [← Bool.not_eq_false]
    intro hbuiltin
    exact hid (List.mem_map_of_mem ((builtin_iff h t).mp ⟨ht, hbuiltin⟩))

theorem change_guarded {l : Lineup} (h : Guarded l) (hids : (l.map (·.id)).Nodup) (c : Change) :
    Guarded (l.change c) := by
  cases c with
  | register t =>
    rw [Lineup.change]
    split
    · exact h
    · next hfree =>
      refine place_guarded h ?_ rfl
      intro hid
      obtain ⟨u, hu, heq⟩ := List.mem_map.mp hid
      obtain ⟨hmem, hbuiltin⟩ := (builtin_iff h u).mpr hu
      exact hfree (.inl ⟨u, hmem, heq, hbuiltin⟩)
  | unregister id =>
    rw [Lineup.change]
    split
    · next hcustom =>
      obtain ⟨u, hu, rfl, hmark⟩ := hcustom
      exact without_guarded h ((custom_iff h hids hu).mp hmark)
    · exact h
  | teardown => exact ⟨[], by rw [List.append_nil]; exact teardown_guarded h, by simp⟩

theorem changed_guarded {r : Registry} (h : Kept r) (hg : Guarded r.all) (changes : List Change) :
    Guarded (changed r changes).all := by
  induction changes generalizing r with
  | nil => exact hg
  | cons c rest ih =>
    refine ih (change_kept h c) ?_
    rw [change_all h]
    exact change_guarded hg (all_nodup h) c

theorem isBuiltin_palette {r : Registry} (h : Kept r) (hg : Guarded r.all) (id : String) :
    r.isBuiltin id = true ↔ id ∈ paletteIds := by
  rw [isBuiltin_iff h, paletteIds, List.mem_map]
  constructor
  · rintro ⟨t, ht, hid, hbuiltin⟩
    exact ⟨t, (builtin_iff hg t).mp ⟨ht, hbuiltin⟩, hid⟩
  · rintro ⟨t, ht, hid⟩
    obtain ⟨hmem, hbuiltin⟩ := (builtin_iff hg t).mpr ht
    exact ⟨t, hmem, hid, hbuiltin⟩

theorem register_protected {r : Registry} {t : NodeType} (h : r.isBuiltin t.id = true) :
    r.register t = .error (.protectedNodeType t.id) := by
  rcases register_ends r t with ⟨-, heq⟩ | ⟨hcustom, -⟩
  · exact heq
  · rw [h] at hcustom
    exact absurd hcustom.symm Bool.false_ne_true

theorem register_refused {r : Registry} {t : NodeType} {fault : GraphFault}
    (h : r.register t = .error fault) : change r (.register t) = r := by
  rw [change, h]
  rfl

theorem unregister_iff (r : Registry) (id : String) :
    (r.unregister id).1 = true ↔ ∃ t, r.find? id = some t ∧ t.isCustom = true := by
  rcases unregister_ends r id with ⟨hfound, heq⟩ | ⟨hnone, heq⟩
  · rw [heq]
    exact iff_of_true rfl hfound
  · rw [heq]
    exact iff_of_false Bool.false_ne_true hnone

theorem unregister_refused {r : Registry} {id : String} (h : (r.unregister id).1 = false) :
    (r.unregister id).2 = r := by
  rcases unregister_ends r id with ⟨-, heq⟩ | ⟨-, heq⟩
  · rw [heq] at h
    exact absurd h.symm Bool.false_ne_true
  · rw [heq]

/-- Registries with one listing answer alike. -/
theorem answers_listing {r r' : Registry} (h : Kept r) (h' : Kept r') (hall : r.all = r'.all) :
    (∀ id, r.find? id = r'.find? id) ∧ (∀ c, r.ofCategory c = r'.ofCategory c) ∧ r.size = r'.size := by
  refine ⟨?_, ?_, ?_⟩
  · intro id
    rw [find_all h, find_all h', hall]
  · intro c
    rw [ofCategory, ofCategory, hall]
  · rw [size_all h, size_all h', hall]

/-- After any changes the palette still comes first and is found as it was, its ids and no others are
protected, a change that is refused changes nothing, and a teardown leads back to what the registry
answered at the start. -/
theorem changed_palette (changes : List Change) :
    let r := changed seeded changes
    ((∀ t ∈ palette, r.find? t.id = some t) ∧ palette <+: r.all) ∧
      (∀ id, r.isBuiltin id = true ↔ id ∈ paletteIds) ∧
      (∀ t, t.id ∈ paletteIds → r.register t = .error (.protectedNodeType t.id)) ∧
      (∀ id ∈ paletteIds, (r.unregister id).1 = false) ∧
      (∀ id, (r.unregister id).1 = true ↔ ∃ t, r.find? id = some t ∧ t.isCustom = true) ∧
      (∀ t ∈ r.all, t.isCustom = true ↔ t.id ∉ paletteIds) ∧
      (∀ t fault, r.register t = .error fault → change r (.register t) = r) ∧
      (∀ id, (r.unregister id).1 = false → (r.unregister id).2 = r) ∧
      (∀ id, r.teardown.find? id = seeded.find? id) ∧ r.teardown.all = seeded.all ∧
      (∀ c, r.teardown.ofCategory c = seeded.ofCategory c) ∧ r.teardown.size = seeded.size := by
  intro r
  have hstart : Kept seeded := opened_kept .builtins
  have hseeded : seeded.all = palette := opened_all .builtins
  have hkept : Kept r := changed_kept hstart changes
  have hguarded : Guarded r.all :=
    changed_guarded hstart ⟨[], by rw [hseeded, List.append_nil], by simp⟩ changes
  have hbuiltin := isBuiltin_palette hkept hguarded
  have hcustom : ∀ t ∈ r.all, t.isCustom = true ↔ t.id ∉ paletteIds :=
    fun t ht => custom_iff hguarded (all_nodup hkept) ht
  have hfound : ∀ t ∈ palette, r.find? t.id = some t :=
    fun t ht => (mem_all hkept t).mp ((builtin_iff hguarded t).mpr ht).1
  have hfirst : palette <+: r.all := by
    obtain ⟨later, hall, -⟩ := hguarded
    exact ⟨later, hall.symm⟩
  have hstay : ∀ id ∈ paletteIds, (r.unregister id).1 = false := by
    intro id hid
    rw [← Bool.not_eq_true, unregister_iff]
    rintro ⟨t, ht, hmark⟩
    obtain ⟨hmem, rfl⟩ := (find_iff hkept id t).mp ht
    exact (hcustom t hmem).mp hmark hid
  have hteardown : r.teardown.all = seeded.all := by
    rw [teardown_all hkept, teardown_guarded hguarded, hseeded]
  obtain ⟨hfind, hcategory, hsize⟩ := answers_listing (teardown_kept hkept) hstart hteardown
  exact ⟨⟨hfound, hfirst⟩, hbuiltin, fun t hid => register_protected ((hbuiltin t.id).mpr hid), hstay,
    unregister_iff r, hcustom, fun t fault => register_refused, fun id => unregister_refused,
    hfind, hteardown, hcategory, hsize⟩

end ScriptHost.Registry
