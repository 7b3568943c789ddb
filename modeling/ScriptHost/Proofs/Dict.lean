import Mathlib.Data.String.Basic
import Mathlib.Data.List.Nodup
import Mathlib.Data.List.Perm.Subperm
import ScriptHost.Dict

/-!
# Ordered dictionaries

`Dict.insert` keeps the order, changes what is found under one key and nothing else, and so building a
dictionary from entries with distinct keys only sorts them.
-/

set_option autoImplicit false

namespace ScriptHost.Dict

variable {α : Type}

@[simp, grind =] theorem find_insert (d : Dict α) (key other : String) (value : α) :
    find? (insert d key value) other = if key = other then some value else find? d other := by
  induction d with
  | nil => rfl
  | cons e rest ih =>
    obtain ⟨k, v⟩ := e
    simp only [insert]
    split
    · rfl
    · split
      · next hk =>
        subst hk
        simp only [find?]
        split <;> rfl
      · next hk =>
        simp only [find?, ih]
        by_cases ho : k = other
        · subst ho
          simp [Ne.symm hk]
        · simp [ho]

theorem mem_insert_key (d : Dict α) (key : String) (value : α) (e : String × α)
    (he : e ∈ insert d key value) : e = (key, value) ∨ e ∈ d := by
  induction d with
  | nil => exact .inl (by simpa [insert] using he)
  | cons x rest ih =>
    obtain ⟨k, v⟩ := x
    simp only [insert] at he
    split at he
    · simpa using he
    · split at he
      · rcases List.mem_cons.mp he with he | he
        · exact .inl he
        · exact .inr (by simp [he])
      · rcases List.mem_cons.mp he with he | he
        · exact .inr (by simp [he])
        · rcases ih he with he | he
          · exact .inl he
          · exact .inr (by simp [he])

theorem insert_ordered (d : Dict α) (key : String) (value : α) (hd : Ordered d) :
    Ordered (insert d key value) := by
  induction d with
  | nil => exact List.pairwise_singleton _ _
  | cons x rest ih =>
    obtain ⟨k, v⟩ := x
    obtain ⟨hx, hrest⟩ := List.pairwise_cons.mp hd
    simp only [insert]
    split
    · next hlt =>
      apply List.pairwise_cons.mpr
      refine ⟨?_, hd⟩
      intro e he
      rcases List.mem_cons.mp he with rfl | he
      · exact hlt
      · exact lt_trans hlt (hx e he)
    · split
      · next hk =>
        subst hk
        exact List.pairwise_cons.mpr ⟨hx, hrest⟩
      · next hlt hk =>
        apply List.pairwise_cons.mpr
        refine ⟨?_, ih hrest⟩
        intro e he
        rcases mem_insert_key rest key value e he with rfl | he
        · exact lt_of_le_of_ne (not_lt.mp hlt) hk
        · exact hx e he

theorem insert_perm (d : Dict α) (key : String) (value : α) (hk : key ∉ d.map (·.1)) :
    (insert d key value).Perm ((key, value) :: d) := by
  induction d with
  | nil => exact .refl _
  | cons x rest ih =>
    obtain ⟨k, v⟩ := x
    simp only [List.map_cons, List.mem_cons, not_or] at hk
    simp only [insert]
    split
    · exact .refl _
    · rw [if_neg (Ne.symm hk.1)]
      exact ((ih hk.2).cons _).trans (.swap _ _ _)

theorem fold_insert_ordered (d : Dict α) (entries : List (String × α)) (hd : Ordered d) :
    Ordered (entries.foldl (fun d e => insert d e.1 e.2) d) := by
  induction entries generalizing d with
  | nil => exact hd
  | cons e rest ih => exact ih _ (insert_ordered d e.1 e.2 hd)

theorem ofList_ordered (entries : List (String × α)) : Ordered (ofList entries) :=
  fold_insert_ordered [] entries .nil

theorem fold_insert_perm (d : Dict α) (entries : List (String × α))
    (hk : ((d ++ entries).map (·.1)).Nodup) :
    (entries.foldl (fun d e => insert d e.1 e.2) d).Perm (d ++ entries) := by
  induction entries generalizing d with
  | nil => simp
  | cons e rest ih =>
    have hmid : (d ++ e :: rest).Perm (e :: d ++ rest) := List.perm_middle
    have hnew : e.1 ∉ d.map (·.1) := by
      have := (hmid.map (·.1)).nodup_iff.mp hk
      simp only [List.cons_append, List.map_cons, List.map_append, List.nodup_cons,
        List.mem_append, not_or] at this
      exact this.1.1
    have hins := insert_perm d e.1 e.2 hnew
    have hperm : (insert d e.1 e.2 ++ rest).Perm (d ++ e :: rest) :=
      (hins.append_right rest).trans hmid.symm
    exact (ih (insert d e.1 e.2) ((hperm.map (·.1)).nodup_iff.mpr hk)).trans hperm

theorem mem_fold_insert {d : Dict α} {entries : List (String × α)} {e : String × α}
    (he : e ∈ entries.foldl (fun d e => insert d e.1 e.2) d) : e ∈ d ∨ e ∈ entries := by
  induction entries generalizing d with
  | nil => exact .inl he
  | cons x rest ih =>
    rcases ih he with hd | hrest
    · rcases mem_insert_key d x.1 x.2 e hd with rfl | hd
      · exact .inr List.mem_cons_self
      · exact .inl hd
    · exact .inr (List.mem_cons_of_mem x hrest)

/-- Of entries with one key the last stays, so there are no others than those given. -/
theorem mem_ofList {entries : List (String × α)} {e : String × α} (he : e ∈ ofList entries) :
    e ∈ entries := (mem_fold_insert he).resolve_left List.not_mem_nil

theorem insert_length (d : Dict α) (key : String) (value : α) :
    0 < (insert d key value).length ∧ (insert d key value).length ≤ d.length + 1 := by
  induction d with
  | nil => simp [insert]
  | cons x rest ih =>
    simp only [insert]
    split
    · simp
    · split
      · simp
      · simpa using ih.2

theorem fold_insert_length (d : Dict α) (entries : List (String × α)) :
    (entries.foldl (fun d e => insert d e.1 e.2) d).length ≤ d.length + entries.length ∧
      (0 < d.length + entries.length →
        0 < (entries.foldl (fun d e => insert d e.1 e.2) d).length) := by
  induction entries generalizing d with
  | nil => simp
  | cons x rest ih =>
    obtain ⟨hpos, hle⟩ := insert_length d x.1 x.2
    obtain ⟨hrest, hthere⟩ := ih (insert d x.1 x.2)
    simp only [List.foldl_cons, List.length_cons]
    exact ⟨by omega, fun _ => hthere (by omega)⟩

theorem ofList_length (entries : List (String × α)) :
    (ofList entries).length ≤ entries.length ∧ (0 < entries.length → 0 < (ofList entries).length) := by
  simpa [ofList] using fold_insert_length [] entries

theorem ofList_perm (entries : List (String × α)) (hk : (entries.map (·.1)).Nodup) :
    (ofList entries).Perm entries := fold_insert_perm [] entries hk

theorem ordered_nodup {d : Dict α} (hd : Ordered d) : (d.map (·.1)).Nodup := by
  apply List.pairwise_map.mpr
  exact hd.imp fun h => ne_of_lt h

theorem find_some_iff (d : Dict α) (key : String) : (find? d key).isSome = true ↔ key ∈ d.map (·.1) := by
  induction d with
  | nil => simp [find?]
  | cons e rest ih =>
    obtain ⟨k, v⟩ := e
    by_cases hk : k = key
    · simp [find?, hk]
    · simp [find?, hk, ih, Ne.symm hk]

theorem insert_keys (d : Dict α) (key other : String) (value : α) :
    other ∈ (insert d key value).map (·.1) ↔ key = other ∨ other ∈ d.map (·.1) := by
  rw [← find_some_iff, ← find_some_iff]
  grind

theorem fold_insert_keys (d : Dict α) (entries : List (String × α)) (key : String) :
    key ∈ (entries.foldl (fun d e => insert d e.1 e.2) d).map (·.1) ↔
      key ∈ d.map (·.1) ∨ key ∈ entries.map (·.1) := by
  induction entries generalizing d with
  | nil => simp
  | cons e rest ih =>
    rw [List.foldl_cons, ih, insert_keys, List.map_cons, List.mem_cons, or_assoc, or_left_comm,
      @eq_comm _ key e.1]

theorem ofList_keys (entries : List (String × α)) (key : String) :
    key ∈ (ofList entries).map (·.1) ↔ key ∈ entries.map (·.1) := by
  rw [ofList, fold_insert_keys, List.map_nil, or_iff_right List.not_mem_nil]

/-- A dictionary has all entries exactly when no two of them have one key. -/
theorem ofList_full (entries : List (String × α)) :
    (ofList entries).length = entries.length ↔ (entries.map (·.1)).Nodup := by
  refine ⟨fun hlength => ?_, fun hk => (ofList_perm entries hk).length_eq⟩
  have hkeys := ordered_nodup (ofList_ordered entries)
  have hsub : (ofList entries).map (·.1) ⊆ entries.map (·.1) := fun key hkey => (ofList_keys entries key).mp hkey
  have hperm := (hkeys.subperm hsub).perm_of_length_le (by simp only [List.length_map, hlength, Nat.le_refl])
  exact hperm.nodup_iff.mp hkeys

/-- Two ordered dictionaries with the same entries are one. -/
theorem ordered_unique {d e : Dict α} (hd : Ordered d) (he : Ordered e) (hp : d.Perm e) : d = e :=
  hp.eq_of_pairwise (fun _ _ _ _ hab hba => absurd hba (lt_asymm hab)) hd he

theorem ofList_of_ordered {d : Dict α} (hd : Ordered d) : ofList d = d :=
  ordered_unique (ofList_ordered d) hd (ofList_perm d (ordered_nodup hd))

/-- The order in which entries with distinct keys are given does not matter. -/
theorem ofList_perm_eq {entries entries' : List (String × α)} (h : entries.Perm entries')
    (hk : (entries.map (·.1)).Nodup) : ofList entries = ofList entries' := by
  have hk' : (entries'.map (·.1)).Nodup := (h.map (·.1)).nodup_iff.mp hk
  refine ordered_unique (ofList_ordered _) (ofList_ordered _) ?_
  exact ((ofList_perm entries hk).trans h).trans (ofList_perm entries' hk').symm

/-- Dictionaries made of entries that are related, key for key, are related entry for entry. -/
theorem ofList_forall₂ {β : Type} {R : α → β → Prop} {entries : List (String × α)}
    {entries' : List (String × β)}
    (h : List.Forall₂ (fun e e' => e.1 = e'.1 ∧ R e.2 e'.2) entries entries') :
    List.Forall₂ (fun e e' => e.1 = e'.1 ∧ R e.2 e'.2) (ofList entries) (ofList entries') := by
  refine List.rel_foldl (fun d d' hd e e' he => ?_) .nil h
  obtain ⟨hkey, hvalue⟩ := he
  rw [← hkey]
  induction hd with
  | nil => exact .cons ⟨rfl, hvalue⟩ .nil
  | @cons x y d d' hxy hrest ih =>
    obtain ⟨k, v⟩ := x
    obtain ⟨k', w⟩ := y
    obtain ⟨rfl, hvw⟩ : k = k' ∧ R v w := hxy
    simp only [insert]
    split
    · exact .cons ⟨rfl, hvalue⟩ (.cons ⟨rfl, hvw⟩ hrest)
    · split
      · exact .cons ⟨rfl, hvalue⟩ hrest
      · exact .cons ⟨rfl, hvw⟩ ih

theorem find_of_mem {entries : List (String × α)} (hk : (entries.map (·.1)).Nodup) {key : String}
    {value : α} (hm : (key, value) ∈ entries) : find? entries key = some value := by
  induction entries with
  | nil => simp at hm
  | cons e rest ih =>
    obtain ⟨k, v⟩ := e
    obtain ⟨hnew, hrest⟩ := List.nodup_cons.mp hk
    simp only [find?]
    rcases List.mem_cons.mp hm with he | hm
    · obtain ⟨rfl, rfl⟩ := Prod.mk.inj he
      simp
    · rw [if_neg, ih hrest hm]
      rintro rfl
      exact hnew (List.mem_map.mpr ⟨_, hm, rfl⟩)

theorem mem_of_find {entries : List (String × α)} {key : String} {value : α}
    (hf : find? entries key = some value) : (key, value) ∈ entries := by
  induction entries with
  | nil => simp [find?] at hf
  | cons e rest ih =>
    obtain ⟨k, v⟩ := e
    simp only [find?] at hf
    split at hf
    · next hk =>
      obtain rfl := Option.some.inj hf
      simp [hk]
    · exact List.mem_cons_of_mem _ (ih hf)

theorem find_iff {d : Dict α} (hk : (d.map (·.1)).Nodup) (key : String) (value : α) :
    find? d key = some value ↔ (key, value) ∈ d := ⟨mem_of_find, find_of_mem hk⟩

@[simp, grind =] theorem find_erase (d : Dict α) (key other : String) :
    find? (erase d key) other = if key = other then none else find? d other := by
  induction d with
  | nil => simp [erase, find?]
  | cons e rest ih =>
    obtain ⟨k, v⟩ := e
    have hrest : find? (rest.filter fun e => e.1 ≠ key) other =
        if key = other then none else find? rest other := ih
    by_cases hk : k = key
    · rw [erase, List.filter_cons_of_neg (by simp [hk]), hrest, find?, hk]
      split <;> rfl
    · rw [erase, List.filter_cons_of_pos (by simp [hk]), find?, hrest, find?]
      by_cases ho : k = other
      · rw [if_pos ho, if_pos ho, if_neg fun h => hk (ho.trans h.symm)]
      · rw [if_neg ho, if_neg ho]

theorem find_filter {d : Dict α} (hk : (d.map (·.1)).Nodup) (keep : α → Bool) (key : String) :
    find? (d.filter fun e => keep e.2) key = (find? d key).filter keep := by
  have hkept : ((d.filter fun e => keep e.2).map (·.1)).Nodup :=
    hk.sublist (List.filter_sublist.map _)
  apply Option.ext
  intro value
  rw [Option.filter_eq_some_iff, find_iff hkept, find_iff hk, List.mem_filter]

theorem find_filter_key (d : Dict α) (keep : String → Bool) (key : String) :
    find? (d.filter fun e => keep e.1) key = if keep key then find? d key else none := by
  induction d with
  | nil => simp [find?]
  | cons e rest ih =>
    obtain ⟨k, v⟩ := e
    by_cases hkeep : keep k
    · rw [List.filter_cons_of_pos (by simpa using hkeep), find?, ih, find?]
      by_cases hk : k = key
      · rw [if_pos hk, if_pos hk, if_pos (hk ▸ hkeep)]
      · rw [if_neg hk, if_neg hk]
    · rw [List.filter_cons_of_neg (by simpa using hkeep), ih, find?]
      by_cases hk : k = key
      · rw [if_neg (hk ▸ hkeep), if_neg (hk ▸ hkeep)]
      · rw [if_neg hk]

theorem override_ordered {d : Dict α} (hd : Ordered d) (entries : List (String × α)) :
    Ordered (override d entries) := fold_insert_ordered d entries hd

theorem override_nil {d : Dict α} (hd : Ordered d) : override [] d = d := ofList_of_ordered hd

/-- Entries with distinct keys hide what was there under their keys, and nothing else. -/
theorem find_override (d : Dict α) {entries : List (String × α)} (hk : (entries.map (·.1)).Nodup)
    (key : String) : find? (override d entries) key = (find? entries key).or (find? d key) := by
  induction entries generalizing d with
  | nil => rfl
  | cons e rest ih =>
    obtain ⟨k, v⟩ := e
    obtain ⟨hnew, hrest⟩ := List.nodup_cons.mp hk
    have hstep : override d ((k, v) :: rest) = override (insert d k v) rest := rfl
    rw [hstep, ih _ hrest, find_insert, find?]
    by_cases hkey : k = key
    · subst hkey
      have habsent : find? rest k = none := by
        rw [← Option.not_isSome_iff_eq_none, find_some_iff]
        exact hnew
      rw [habsent, if_pos rfl, if_pos rfl, Option.none_or, Option.some_or]
    · rw [if_neg hkey, if_neg hkey]

/-- Two ordered dictionaries in which the same is found under every key are one. -/
theorem ordered_ext {d e : Dict α} (hd : Ordered d) (he : Ordered e)
    (h : ∀ key, find? d key = find? e key) : d = e := by
  have hdk := ordered_nodup hd
  have hek := ordered_nodup he
  refine ordered_unique hd he ((List.perm_ext_iff_of_nodup hdk.of_map hek.of_map).mpr ?_)
  rintro ⟨key, value⟩
  rw [← find_iff hdk, ← find_iff hek, h]

end ScriptHost.Dict
