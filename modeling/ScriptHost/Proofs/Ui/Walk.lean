import Mathlib.Data.List.Lex
import ScriptHost.Ui.Node

/-!
# Walking a tree

A place in a tree is the way to it from the root, by the indices of the children.  Walking meets the nodes of
all places, each once, a node before what is under it and the children in their order; searching for a tag
gives the first node of the walk that has it.
-/

set_option autoImplicit false

namespace ScriptHost

namespace UiNode

mutual

theorem find_walk (wanted : String) (n : UiNode) :
    n.find? wanted = n.walk.find? fun m => m.tag = wanted := by
  match n with
  | .mk tag props children =>
    rw [find?, walk, List.find?_cons, findInChildren_walk]
    by_cases htag : tag = wanted <;> simp [htag, UiNode.tag]

theorem findInChildren_walk (wanted : String) (children : Option (List UiNode)) :
    findInChildren? wanted children = (walkChildren children).find? fun m => m.tag = wanted := by
  match children with
  | none => rfl
  | some items => exact findInItems_walk wanted items

theorem findInItems_walk (wanted : String) (items : List UiNode) :
    findInItems? wanted items = (walkItems items).find? fun m => m.tag = wanted := by
  match items with
  | [] => rfl
  | n :: rest =>
    rw [findInItems?, walkItems, List.find?_append, find_walk wanted n, findInItems_walk wanted rest]
    cases n.walk.find? fun m => m.tag = wanted <;> rfl

end

def at? : List ℕ → UiNode → Option UiNode
  | [], n => some n
  | i :: place, n => n.children[i]?.bind (at? place)

/-- A place comes before those under it, and what is under a child before what is under a later one. -/
inductive Precedes : List ℕ → List ℕ → Prop
  | under (place : List ℕ) (i : ℕ) (rest : List ℕ) : Precedes place (place ++ i :: rest)
  | sibling (place : List ℕ) {i j : ℕ} (hij : i < j) (left right : List ℕ) :
      Precedes (place ++ i :: left) (place ++ j :: right)

theorem Precedes.cons {p q : List ℕ} (h : Precedes p q) (i : ℕ) : Precedes (i :: p) (i :: q) := by
  cases h with
  | under _ j rest => exact .under (i :: p) j rest
  | sibling place hjk left right => exact .sibling (i :: place) hjk left right

theorem Precedes.lt {p q : List ℕ} (h : Precedes p q) : p < q := by
  cases h with
  | under _ i rest =>
    conv => lhs; rw [← List.append_nil p]
    exact List.append_left_lt (List.nil_lt_cons i rest)
  | sibling place hij left right => exact List.append_left_lt (List.cons_lt_cons_iff.mpr (.inl hij))

mutual

def places : UiNode → List (List ℕ)
  | .mk _ _ children => [] :: childPlaces children

def childPlaces : Option (List UiNode) → List (List ℕ)
  | none => []
  | some items => itemPlaces 0 items

def itemPlaces (i : ℕ) : List UiNode → List (List ℕ)
  | [] => []
  | n :: rest => n.places.map (i :: ·) ++ itemPlaces (i + 1) rest

end

mutual

theorem walk_places (n : UiNode) : n.walk.map some = n.places.map (at? · n) := by
  match n with
  | .mk tag props children => exact congrArg _ (walkChildren_places tag props children)

theorem walkChildren_places (tag : String) (props : List (String × Value))
    (children : Option (List UiNode)) :
    (walkChildren children).map some = (childPlaces children).map (at? · (.mk tag props children)) := by
  match children with
  | none => rfl
  | some items => exact walkItems_places 0 items _ rfl

theorem walkItems_places (i : ℕ) (items : List UiNode) (parent : UiNode)
    (hitems : parent.children.drop i = items) :
    (walkItems items).map some = (itemPlaces i items).map (at? · parent) := by
  match items with
  | [] => rfl
  | n :: rest =>
    have hchild : parent.children[i]? = some n := by
      rw [← List.head?_drop, hitems, List.head?_cons]
    have hrest : parent.children.drop (i + 1) = rest := by
      rw [← List.tail_drop, hitems, List.tail_cons]
    have hunder : (n.places.map (i :: ·)).map (at? · parent) = n.places.map (at? · n) := by
      rw [List.map_map]
      exact List.map_congr_left fun place _ => by simp [at?, hchild]
    rw [walkItems, itemPlaces, List.map_append, List.map_append, hunder, walk_places n,
      walkItems_places (i + 1) rest parent hrest]

end

theorem itemPlaces_first (i : ℕ) (items : List UiNode) {place : List ℕ} (h : place ∈ itemPlaces i items) :
    ∃ j p, i ≤ j ∧ place = j :: p := by
  induction items generalizing i with
  | nil => cases h
  | cons n rest ih =>
    rcases List.mem_append.mp h with h | h
    · obtain ⟨p, -, rfl⟩ := List.mem_map.mp h
      exact ⟨i, p, Nat.le_refl i, rfl⟩
    · obtain ⟨j, p, hj, rfl⟩ := ih (i + 1) h
      exact ⟨j, p, Nat.le_of_succ_le hj, rfl⟩

mutual

theorem places_ordered (n : UiNode) : n.places.Pairwise Precedes := by
  match n with
  | .mk tag props children =>
    refine List.pairwise_cons.mpr ⟨fun place hplace => ?_, childPlaces_ordered children⟩
    cases children with
    | none => cases hplace
    | some items =>
      obtain ⟨j, p, -, rfl⟩ := itemPlaces_first 0 items hplace
      exact .under [] j p

theorem childPlaces_ordered (children : Option (List UiNode)) :
    (childPlaces children).Pairwise Precedes := by
  match children with
  | none => exact .nil
  | some items => exact itemPlaces_ordered 0 items

theorem itemPlaces_ordered (i : ℕ) (items : List UiNode) : (itemPlaces i items).Pairwise Precedes := by
  match items with
  | [] => exact .nil
  | n :: rest =>
    refine List.pairwise_append.mpr ⟨?_, itemPlaces_ordered (i + 1) rest, ?_⟩
    · exact List.pairwise_map.mpr ((places_ordered n).imp fun h => h.cons i)
    · intro left hleft right hright
      obtain ⟨p, -, rfl⟩ := List.mem_map.mp hleft
      obtain ⟨j, q, hj, rfl⟩ := itemPlaces_first (i + 1) rest hright
      exact .sibling [] hj p q

end

theorem mem_itemPlaces (i k : ℕ) (items : List UiNode) {n : UiNode} (hn : items[k]? = some n)
    {place : List ℕ} (hplace : place ∈ n.places) : (i + k) :: place ∈ itemPlaces i items := by
  induction items generalizing i k with
  | nil => cases hn
  | cons m rest ih =>
    refine List.mem_append.mpr ?_
    cases k with
    | zero =>
      obtain rfl := Option.some.inj hn
      exact .inl (List.mem_map_of_mem hplace)
    | succ k =>
      have hrest := ih (i + 1) k hn
      rw [Nat.add_right_comm, Nat.add_assoc] at hrest
      exact .inr hrest

theorem mem_places (place : List ℕ) (n : UiNode) : place ∈ n.places ↔ ∃ m, at? place n = some m := by
  constructor
  · intro h
    have hwalk : at? place n ∈ n.walk.map some := walk_places n ▸ List.mem_map_of_mem h
    obtain ⟨m, -, hm⟩ := List.mem_map.mp hwalk
    exact ⟨m, hm.symm⟩
  · rintro ⟨m, hm⟩
    induction place generalizing n with
    | nil =>
      cases n
      exact List.mem_cons_self
    | cons i place ih =>
      obtain ⟨child, hchild, hat⟩ := Option.bind_eq_some_iff.mp hm
      obtain ⟨tag, props, children⟩ := n
      cases children with
      | none => cases hchild
      | some items =>
        have hmem := mem_itemPlaces 0 i items hchild (ih child hat)
        rw [Nat.zero_add] at hmem
        exact List.mem_cons_of_mem _ hmem

/-- Of two places the earlier one in the list is the one that precedes the other. -/
theorem places_earlier (n : UiNode) (i j : ℕ) (hi : i < n.places.length) (hj : j < n.places.length) :
    i < j ↔ Precedes n.places[i] n.places[j] := by
  have hordered := List.pairwise_iff_getElem.mp (places_ordered n)
  constructor
  · exact hordered i j hi hj
  · intro hprecedes
    rcases Nat.lt_trichotomy i j with hlt | heq | hgt
    · exact hlt
    · subst heq
      exact absurd hprecedes.lt (lt_irrefl _)
    · exact absurd hprecedes.lt (lt_asymm (hordered j i hj hi hgt).lt)

/-- Searching gives the first node of the walk that has the tag, and nothing when none has it.  The walk goes
through the nodes of all places, each place once, and one place earlier than another exactly when it precedes
it. -/
theorem walk_visits (n : UiNode) :
    (∀ wanted, n.find? wanted = (n.walk.find? fun m => m.tag = wanted) ∧
      (n.find? wanted = none ↔ ∀ m ∈ n.walk, m.tag ≠ wanted)) ∧
    ∃ places : List (List ℕ), n.walk.map some = places.map (at? · n) ∧ places.Nodup ∧
      (∀ place, place ∈ places ↔ ∃ m, at? place n = some m) ∧
      ∀ i j (hi : i < places.length) (hj : j < places.length), i < j ↔ Precedes places[i] places[j] := by
  refine ⟨fun wanted => ⟨find_walk wanted n, ?_⟩, n.places, walk_places n, ?_, ?_, places_earlier n⟩
  · simp [find_walk]
  · exact (places_ordered n).imp fun h => h.lt.ne
  · exact fun place => mem_places place n

-- the button under the row comes before the one beside it
example :
    let n : UiNode := .mk "panel" [] (some [.mk "row" [] (some [.mk "button" [("id", .int 1)] none]),
      .mk "button" [("id", .int 2)] none])
    n.walk.map (·.tag) = ["panel", "row", "button", "button"] ∧
      n.places = [[], [0], [0, 0], [1]] ∧ (n.find? "button").map props = some [("id", .int 1)] :=
  ⟨rfl, rfl, rfl⟩

end UiNode

end ScriptHost
