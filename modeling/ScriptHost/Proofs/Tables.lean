import ScriptHost.Proofs.Value.Normal
import ScriptHost.Standard.Tables

/-!
# The union of tables

A list counts as the map from the texts of its indices, from one on, to its items.  The union of tables has
under each key what the last table with that key has, and refuses the first argument that is no table by its
position.  It is a table itself, so it does not matter which tables are united first.
-/

set_option autoImplicit false

namespace ScriptHost

namespace Tables

inductive IsTable : Value → Prop
  | nil : IsTable .nil
  | array (items : List Value) : IsTable (.array items)
  | map (members : List (String × Value)) : IsTable (.map members)

inductive Holds : Value → String → Value → Prop
  | item {items : List Value} {i : ℕ} {w : Value} (hi : items[i]? = some w) :
      Holds (.array items) (toString (i + 1)) w
  | member {members : List (String × Value)} {key : String} {w : Value} (hm : (key, w) ∈ members) :
      Holds (.map members) key w

def Keyed (args : List Value) : Prop := ∀ members, Value.map members ∈ args → Dict.Ordered members

def entries (v : Value) : List (String × Value) := (entries? v).getD []

theorem entries_table {v : Value} (h : IsTable v) : entries? v = some (entries v) := by
  cases h <;> rfl

theorem entries_none {v : Value} (h : ¬ IsTable v) : entries? v = none := by
  cases v with
  | nil => exact absurd .nil h
  | array items => exact absurd (.array items) h
  | map members => exact absurd (.map members) h
  | _ => rfl

theorem indexed_keys (i : ℕ) (items : List Value) :
    (indexed i items).map (·.1) = (List.range' i items.length).map toString := by
  induction items generalizing i with
  | nil => rfl
  | cons v rest ih => rw [indexed, List.map_cons, ih, List.length_cons, List.range'_succ, List.map_cons]

theorem mem_indexed (i : ℕ) (items : List Value) (key : String) (w : Value) :
    (key, w) ∈ indexed i items ↔ ∃ j, items[j]? = some w ∧ key = toString (i + j) := by
  induction items generalizing i with
  | nil => simp [indexed]
  | cons v rest ih =>
    rw [indexed, List.mem_cons, ih]
    constructor
    · rintro (hhead | ⟨j, hj, rfl⟩)
      · obtain ⟨rfl, rfl⟩ := Prod.mk.inj hhead
        exact ⟨0, rfl, rfl⟩
      · exact ⟨j + 1, hj, by rw [Nat.add_right_comm, Nat.add_assoc]⟩
    · rintro ⟨j, hj, rfl⟩
      cases j with
      | zero =>
        obtain rfl := Option.some.inj hj
        exact .inl rfl
      | succ j => exact .inr ⟨j, hj, by rw [Nat.add_right_comm, Nat.add_assoc]⟩

theorem entries_nodup {v : Value} (hv : Keyed [v]) : ((entries v).map (·.1)).Nodup := by
  cases v with
  | array items =>
    have hkeys : (entries (.array items)).map (·.1) = (List.range' 1 items.length).map toString :=
      indexed_keys 1 items
    rw [hkeys]
    exact Value.numeralsFrom_nodup 1 items.length
  | map members => exact Dict.ordered_nodup (hv members List.mem_cons_self)
  | _ => exact List.nodup_nil

theorem mem_entries (v : Value) (key : String) (w : Value) : (key, w) ∈ entries v ↔ Holds v key w := by
  cases v with
  | array items =>
    rw [show entries (.array items) = indexed 1 items from rfl, mem_indexed]
    constructor
    · rintro ⟨j, hj, rfl⟩
      rw [Nat.add_comm]
      exact .item hj
    · rintro ⟨hi⟩
      exact ⟨_, hi, by rw [Nat.add_comm]⟩
  | map members =>
    constructor
    · exact .member
    · rintro ⟨⟩
      assumption
  | _ => exact ⟨fun h => absurd h List.not_mem_nil, fun h => by cases h⟩

theorem find_entries {v : Value} (hv : Keyed [v]) (key : String) (w : Value) :
    Dict.find? (entries v) key = some w ↔ Holds v key w := by
  rw [Dict.find_iff (entries_nodup hv), mem_entries]

theorem keyed_mem {args : List Value} (h : Keyed args) {v : Value} (hv : v ∈ args) : Keyed [v] := by
  intro members hm
  obtain rfl := List.mem_singleton.mp hm
  exact h members hv

def union (d : Dict Value) (args : List Value) : Dict Value :=
  args.foldl (fun d v => Dict.override d (entries v)) d

@[simp] theorem union_append (d : Dict Value) (xs ys : List Value) : union d (xs ++ ys) = union (union d xs) ys :=
  List.foldl_append

theorem union_ordered {d : Dict Value} (hd : Dict.Ordered d) (args : List Value) :
    Dict.Ordered (union d args) := by
  induction args generalizing d with
  | nil => exact hd
  | cons v rest ih => exact ih (Dict.override_ordered hd (entries v))

theorem find_union {args : List Value} (hargs : Keyed args) (d : Dict Value) (key : String) :
    Dict.find? (union d args) key =
      (args.reverse.findSome? fun v => Dict.find? (entries v) key).or (Dict.find? d key) := by
  induction args generalizing d with
  | nil => rfl
  | cons v rest ih =>
    have hrest : Keyed rest := fun members hm => hargs members (List.mem_cons_of_mem v hm)
    have hv : Keyed [v] := keyed_mem hargs List.mem_cons_self
    have hstep : union d (v :: rest) = union (Dict.override d (entries v)) rest := rfl
    rw [hstep, ih hrest, Dict.find_override d (entries_nodup hv), List.reverse_cons,
      List.findSome?_append, List.findSome?_singleton, Option.or_assoc]

def LastHolds (args : List Value) (key : String) (w : Value) : Prop :=
  ∃ before v after, args = before ++ v :: after ∧ Holds v key w ∧ ∀ u ∈ after, ∀ w', ¬ Holds u key w'

theorem union_holds {args : List Value} (hargs : Keyed args) (key : String) (w : Value) :
    Dict.find? (union [] args) key = some w ↔ LastHolds args key w := by
  have hfound : ∀ v ∈ args, ∀ w', Dict.find? (entries v) key = some w' ↔ Holds v key w' :=
    fun v hv => find_entries (keyed_mem hargs hv) key
  rw [find_union hargs, Dict.find?, Option.or_none, List.findSome?_eq_some_iff]
  constructor
  · rintro ⟨after, v, before, hsplit, hv, hnone⟩
    have hargs' : args = before.reverse ++ v :: after.reverse := by
      rw [← args.reverse_reverse, hsplit]
      simp
    have hmem : ∀ u, u = v ∨ u ∈ after → u ∈ args := by
      intro u hu
      rw [hargs']
      rcases hu with rfl | hu
      · simp
      · simp [hu]
    refine ⟨before.reverse, v, after.reverse, hargs', (hfound v (hmem v (.inl rfl)) w).mp hv, ?_⟩
    intro u hu w' hw'
    have hu' : u ∈ after := List.mem_reverse.mp hu
    rw [← hfound u (hmem u (.inr hu')), hnone u hu'] at hw'
    cases hw'
  · rintro ⟨before, v, after, rfl, hv, hnone⟩
    refine ⟨after.reverse, v, before.reverse, by simp, (hfound v (by simp) w).mpr hv, ?_⟩
    intro u hu
    have hu' : u ∈ after := List.mem_reverse.mp hu
    refine Option.eq_none_iff_forall_ne_some.mpr fun w' hw' => ?_
    exact hnone u hu' w' ((hfound u (by simp [hu']) w').mp hw')

/-- Tables go over a dictionary as their union does. -/
theorem union_override {d : Dict Value} (hd : Dict.Ordered d) {args : List Value} (hargs : Keyed args) :
    Dict.override d (union [] args) = union d args := by
  have hunion : Dict.Ordered (union [] args) := union_ordered List.Pairwise.nil args
  refine Dict.ordered_ext (Dict.override_ordered hd _) (union_ordered hd args) fun key => ?_
  rw [Dict.find_override d (Dict.ordered_nodup hunion), find_union hargs [], find_union hargs d]
  simp [Dict.find?]

def notTable (position : ℕ) (v : Value) : ScriptError :=
  .runtime ("utils.merge: argument " ++ toString position ++ " is a " ++ v.typeName ++ ", expected a table")

theorem mergeOnto_tables {args : List Value} (h : ∀ v ∈ args, IsTable v) (d : Dict Value) (position : ℕ) :
    mergeOnto d position args = .ok (union d args) := by
  induction args generalizing d position with
  | nil => rfl
  | cons v rest ih =>
    obtain ⟨hv, hrest⟩ := List.forall_mem_cons.mp h
    rw [mergeOnto, entries_table hv]
    exact ih hrest _ _

theorem mergeOnto_refused {before : List Value} (h : ∀ u ∈ before, IsTable u) {v : Value} (hv : ¬ IsTable v)
    (after : List Value) (d : Dict Value) (position : ℕ) :
    mergeOnto d position (before ++ v :: after) = .error (notTable (position + before.length) v) := by
  induction before generalizing d position with
  | nil =>
    rw [List.nil_append, mergeOnto, entries_none hv]
    rfl
  | cons u rest ih =>
    obtain ⟨hu, hrest⟩ := List.forall_mem_cons.mp h
    rw [List.cons_append, mergeOnto, entries_table hu, List.length_cons, Nat.add_comm rest.length,
      ← Nat.add_assoc]
    exact ih hrest _ _

theorem merge_tables {args : List Value} (h : ∀ v ∈ args, IsTable v) :
    merge args = .ok (.map (union [] args)) := by
  rw [merge, mergeOnto_tables h]
  rfl

theorem merge_refused {before : List Value} (h : ∀ u ∈ before, IsTable u) {v : Value} (hv : ¬ IsTable v)
    (after : List Value) : merge (before ++ v :: after) = .error (notTable (before.length + 1) v) := by
  rw [merge, mergeOnto_refused h hv, Nat.add_comm]
  rfl

/-- Either all values are tables, or there is a first one that is none. -/
theorem tables_or_first (args : List Value) : (∀ v ∈ args, IsTable v) ∨
    ∃ before v after, args = before ++ v :: after ∧ (∀ u ∈ before, IsTable u) ∧ ¬ IsTable v := by
  induction args with
  | nil => exact .inl (by simp)
  | cons u rest ih =>
    by_cases hu : IsTable u
    · rcases ih with hall | ⟨before, v, after, rfl, hbefore, hv⟩
      · exact .inl (List.forall_mem_cons.mpr ⟨hu, hall⟩)
      · exact .inr ⟨u :: before, v, after, rfl, List.forall_mem_cons.mpr ⟨hu, hbefore⟩, hv⟩
    · exact .inr ⟨[], u, rest, rfl, by simp, hu⟩

theorem merge_error_iff (args : List Value) (e : ScriptError) : merge args = .error e ↔
    ∃ before v after, args = before ++ v :: after ∧ (∀ u ∈ before, IsTable u) ∧ ¬ IsTable v ∧
      e = notTable (before.length + 1) v := by
  constructor
  · intro h
    rcases tables_or_first args with hall | ⟨before, v, after, rfl, hbefore, hv⟩
    · rw [merge_tables hall] at h
      cases h
    · rw [merge_refused hbefore hv] at h
      exact ⟨before, v, after, rfl, hbefore, hv, (Except.error.inj h).symm⟩
  · rintro ⟨before, v, after, rfl, hbefore, hv, rfl⟩
    exact merge_refused hbefore hv after

theorem merge_first {xs ys : List Value} (hxs : ∀ v ∈ xs, IsTable v) (hys : ∀ v ∈ ys, IsTable v) :
    merge (.map (union [] xs) :: ys) = merge (xs ++ ys) := by
  have hunion : Dict.Ordered (union [] xs) := union_ordered List.Pairwise.nil xs
  have hstep : union [] (.map (union [] xs) :: ys) = union (Dict.override [] (union [] xs)) ys := rfl
  rw [merge_tables (List.forall_mem_cons.mpr ⟨.map _, hys⟩),
    merge_tables (List.forall_mem_append.mpr ⟨hxs, hys⟩), hstep, Dict.override_nil hunion, union_append]

theorem merge_last {xs ys : List Value} (hxs : ∀ v ∈ xs, IsTable v) (hys : ∀ v ∈ ys, IsTable v)
    (hkeyed : Keyed ys) : merge (xs ++ [.map (union [] ys)]) = merge (xs ++ ys) := by
  have hunion : Dict.Ordered (union [] xs) := union_ordered List.Pairwise.nil xs
  have hstep : union (union [] xs) [.map (union [] ys)] = Dict.override (union [] xs) (union [] ys) := rfl
  have hlast : ∀ v ∈ xs ++ [.map (union [] ys)], IsTable v :=
    List.forall_mem_append.mpr ⟨hxs, by simpa using IsTable.map _⟩
  rw [merge_tables hlast, merge_tables (List.forall_mem_append.mpr ⟨hxs, hys⟩), union_append, hstep,
    union_override hunion hkeyed, union_append]

/-- Merging refuses exactly the lists with an argument that is no table, by the place of the first one.
Tables are united: the last one that has a key decides what is under it.  Merging a first or a last part of
them beforehand changes nothing. -/
theorem merge_union (args : List Value) (hargs : Keyed args) :
    (∀ e, merge args = .error e ↔ ∃ before v after, args = before ++ v :: after ∧
      (∀ u ∈ before, IsTable u) ∧ ¬ IsTable v ∧ e = notTable (before.length + 1) v) ∧
    ((∀ v ∈ args, IsTable v) → ∃ members, merge args = .ok (.map members) ∧ Dict.Ordered members ∧
      ∀ key w, Holds (.map members) key w ↔ LastHolds args key w) ∧
    ((∀ v ∈ args, IsTable v) → ∀ xs ys, args = xs ++ ys → ∃ first last, merge xs = .ok first ∧
      merge ys = .ok last ∧ merge (first :: ys) = merge args ∧ merge (xs ++ [last]) = merge args) := by
  refine ⟨merge_error_iff args, ?_, ?_⟩
  · intro h
    have hordered : Dict.Ordered (union [] args) := union_ordered List.Pairwise.nil args
    have hmap : Keyed [.map (union [] args)] := by
      intro members hm
      obtain rfl : members = union [] args := by simpa using hm
      exact hordered
    refine ⟨_, merge_tables h, hordered, fun key w => ?_⟩
    rw [← union_holds hargs, ← find_entries hmap]
    rfl
  · rintro h xs ys rfl
    obtain ⟨hxs, hys⟩ := List.forall_mem_append.mp h
    have hkeyed : Keyed ys := fun members hm => hargs members (List.mem_append_right xs hm)
    exact ⟨_, _, merge_tables hxs, merge_tables hys, merge_first hxs hys, merge_last hxs hys hkeyed⟩

def overlapping : List Value :=
  -- a list, nil, and a map with the text of an index among its keys
  [.array [.string "a", .string "b"], .nil, .map [("1", .string "c"), ("x", .int 1)]]

theorem overlapping_union : Keyed overlapping ∧ (∀ v ∈ overlapping, IsTable v) ∧
    merge overlapping = .ok (.map [("1", .string "c"), ("2", .string "b"), ("x", .int 1)]) ∧
    LastHolds overlapping "1" (.string "c") ∧
    ∃ last, merge [.nil, .map [("1", .string "c"), ("x", .int 1)]] = .ok last ∧
      merge [.array [.string "a", .string "b"], last] = merge overlapping := by
  have hkeyed : Keyed overlapping := by
    intro members hm
    obtain rfl : members = [("1", .string "c"), ("x", .int 1)] := by simpa [overlapping] using hm
    exact List.pairwise_pair.mpr (by decide)
  have htables : ∀ v ∈ overlapping, IsTable v := by
    simp [overlapping, IsTable.nil, IsTable.array, IsTable.map]
  have hmerge : merge overlapping = .ok (.map [("1", .string "c"), ("2", .string "b"), ("x", .int 1)]) := by rfl
  obtain ⟨-, hunion, hregrouped⟩ := merge_union overlapping hkeyed
  refine ⟨hkeyed, htables, hmerge, ?_, ?_⟩
  · obtain ⟨members, hmembers, -, hholds⟩ := hunion htables
    rw [hmerge] at hmembers
    obtain rfl := Value.map.inj (Except.ok.inj hmembers)
    exact (hholds "1" _).mp (.member List.mem_cons_self)
  · obtain ⟨-, last, -, hlast, -, htogether⟩ :=
      hregrouped htables [.array [.string "a", .string "b"]] _ rfl
    exact ⟨last, hlast, htogether⟩

-- the first argument that is no table is named, whatever comes after it
example : merge [.nil, .int 3, .bool true] =
    .error (.runtime "utils.merge: argument 2 is a integer, expected a table") := by
  rfl

end Tables

end ScriptHost
