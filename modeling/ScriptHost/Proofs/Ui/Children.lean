import ScriptHost.Proofs.Ui.Built

/-!
# What becomes of the nodes that a factory is given

A call reads its first argument as nodes or as props, and its second as nodes.  A call that would leave
out a node of a list, or give children to a component that takes none, is refused; but when the first
argument brings the children, the second is not looked at.  So all nodes are kept exactly when one of
the two arguments brings none.
-/

set_option autoImplicit false

namespace ScriptHost.Factory
open UiNode (isMarked)

def nodesGiven (v : Value) : List Value := (nodesIn v).filter isMarked

def childValues (v : Value) : List Value :=
  match v.get? "children" with
  | some (.array items) => items
  | _ => []

@[simp] theorem childValues_node (tag : String) (props : Dict Value) (children : List Value) :
    childValues (node tag props children) = children := by
  cases children <;> rfl

theorem nodesGiven_nil : nodesGiven .nil = [] := rfl

@[simp] theorem nodesIn_array (items : List Value) : nodesIn (.array items) = items := rfl

theorem isNodes_iff (v : Value) :
    isNodes v = true ↔ nodesIn v ≠ [] ∧ ∀ c ∈ nodesIn v, isMarked c = true := by
  by_cases hmark : isMarked v = true
  · simp [isNodes, hmark]
  · simp [isNodes, hmark]

/-- The arguments of a call, those that are missing being nil. -/
theorem given_two {args : List Value} (h : args.length ≤ 2) :
    args.flatMap nodesGiven = nodesGiven (first args) ++ nodesGiven (second args) := by
  match args with
  | [] => rfl
  | [a] => simp [first, second, nodesGiven_nil]
  | [a, b] => simp [first, second]
  | _ :: _ :: _ :: _ => simp at h

/-- A list with a node in it is refused unless it is all nodes. -/
theorem split_brings {tag : String} {a b : Value} {r : Dict Value × Value} (h : split tag a b = .ok r)
    (hnodes : isNodes a = false) : nodesGiven a = [] := by
  have hplain : isMarked a = false := (Bool.or_eq_false_iff.mp hnodes).1
  cases a with
  | array items =>
    have hnot : ¬ (items ≠ [] ∧ ∀ c ∈ items, isMarked c = true) := by
      rw [← nodesIn_array items, ← isNodes_iff, hnodes]
      exact Bool.false_ne_true
    by_cases hempty : items = []
    · rw [hempty]
      rfl
    · have hmixed : items.all isMarked = false := by
        rw [← Bool.not_eq_true, List.all_eq_true]
        exact fun hall => hnot ⟨hempty, hall⟩
      simp [split, isMarked_array, hempty, hmixed] at h
  | _ => simp [nodesGiven, nodesIn, hplain]

theorem childList_given {tag : String} {v : Value} {children : List Value}
    (h : childList tag v = .ok children) : children = nodesGiven v := by
  obtain rfl := childList_ok h
  symm
  rw [nodesGiven, List.filter_eq_self]
  by_cases hmark : isMarked v = true
  · simp [hmark]
  · have hplain : isMarked v = false := by simpa using hmark
    simp only [childList, hplain, Bool.false_eq_true, if_false] at h
    cases v with
    | array items =>
      rw [nodesIn_array]
      cases hbad : items.findIdx? fun c => !isMarked c with
      | some i => simp [hbad] at h
      | none => simpa using hbad
    | _ => simp [nodesIn, hplain]

/-- The children are the nodes of the first argument, or, when it brings none, those of the second. -/
theorem build_children {tag : String} {args : List Value} {v : Value} (h : build tag args = .ok v) :
    childValues v =
      if nodesGiven (first args) = [] then nodesGiven (second args) else nodesGiven (first args) := by
  obtain ⟨rfl, -⟩ := build_ok h
  rw [childValues_node, carried]
  simp only [build] at h
  split at h
  · cases h
  · next props rest hsplit =>
    have hsplit' : split tag (first args) (second args) = .ok (props, rest) := hsplit
    obtain ⟨-, rfl⟩ := split_ok hsplit'
    split at h
    · cases h
    · next children hchildren =>
      have hgiven := childList_given hchildren
      rw [← childList_ok hchildren, hgiven, carrier]
      by_cases hnodes : isNodes (first args) = true
      · have hsome : nodesGiven (first args) ≠ [] := by
          obtain ⟨hne, hall⟩ := (isNodes_iff _).mp hnodes
          rwa [nodesGiven, List.filter_eq_self.mpr hall]
        rw [if_pos hnodes, if_neg hsome]
      · rw [if_neg hnodes, if_pos (split_brings hsplit' (by simpa using hnodes))]

theorem split_refused {tag : String} {a b : Value} {e : ScriptError} (h : split tag a b = .error e) :
    ∃ message, e = refusal tag message := by
  simp only [split] at h
  split at h
  · cases h
  · split at h
    · cases h
    · cases h
    · next items =>
      split at h
      · cases h
      · split at h
        · cases h
        · exact ⟨_, (Except.error.inj h).symm⟩
    · exact ⟨_, (Except.error.inj h).symm⟩
    · exact ⟨_, (Except.error.inj h).symm⟩
    · cases h

theorem childList_refused {tag : String} {v : Value} {e : ScriptError} (h : childList tag v = .error e) :
    ∃ message, e = refusal tag message := by
  simp only [childList] at h
  split at h
  · cases h
  · split at h
    · cases h
    · split at h
      · exact ⟨_, (Except.error.inj h).symm⟩
      · cases h
    · split at h
      · cases h
      · exact ⟨_, (Except.error.inj h).symm⟩

/-- A call that fails is refused at run time, by the name of its component. -/
theorem build_refused {tag : String} {args : List Value} {e : ScriptError} (h : build tag args = .error e) :
    ∃ message, e = refusal tag message := by
  simp only [build] at h
  split at h
  · next failure hsplit =>
    obtain rfl := Except.error.inj h
    exact split_refused hsplit
  · split at h
    · next failure hchildren =>
      obtain rfl := Except.error.inj h
      exact childList_refused hchildren
    · cases hfind : Component.find? tag with
      | none => simp [hfind] at h
      | some c =>
        simp only [hfind] at h
        split at h
        · exact ⟨_, (Except.error.inj h).symm⟩
        · cases h

/-- A call with at most two arguments that succeeds has, of the nodes it is given, those of the first
argument as its children, or those of the second when the first brings none.  These are all nodes, in
their order, exactly when one of the two brings none.  Any other call is refused at run time. -/
theorem given_nodes_kept (tag : String) (args : List Value) (hargs : args.length ≤ 2) :
    (∀ v, build tag args = .ok v →
      (childValues v =
        if nodesGiven (first args) = [] then nodesGiven (second args) else nodesGiven (first args)) ∧
      ((args.flatMap nodesGiven).Sublist (childValues v) ↔
        nodesGiven (first args) = [] ∨ nodesGiven (second args) = [])) ∧
    ∀ e, build tag args = .error e → e.kind = .runtime := by
  refine ⟨fun v hv => ⟨build_children hv, ?_⟩, fun e he => ?_⟩
  · rw [build_children hv, given_two hargs]
    by_cases hfirst : nodesGiven (first args) = []
    · simp [hfirst]
    · rw [if_neg hfirst, or_iff_right hfirst]
      constructor
      · intro hsub
        have hlength := hsub.length_le
        rw [List.length_append] at hlength
        exact List.eq_nil_of_length_eq_zero (by omega)
      · intro hsecond
        rw [hsecond, List.append_nil]
  · obtain ⟨message, rfl⟩ := build_refused he
    rfl

def label (text : String) : Value := node "text" [("value", .string text)] []

/-- Two texts after the props, as a list. -/
theorem given_nodes_kept_listed :
    let args : List Value := [.map [("gap", .int 4)], .array [label "a", label "b"]]
    args.length ≤ 2 ∧
      ∃ v, build "row" args = .ok v ∧ args.flatMap nodesGiven = [label "a", label "b"] ∧
        (args.flatMap nodesGiven).Sublist (childValues v) := by
  intro args
  have hargs : args.length ≤ 2 := by decide
  have hbuilt : build "row" args = .ok (node "row" [("gap", .int 4)] [label "a", label "b"]) := rfl
  refine ⟨hargs, _, hbuilt, rfl, ?_⟩
  exact (((given_nodes_kept "row" args hargs).1 _ hbuilt).2).mpr (.inl rfl)

/-- Of two texts given one after the other the second is gone, and nothing is refused. -/
theorem second_node_dropped :
    let args : List Value := [label "a", label "b"]
    build "row" args = .ok (node "row" [] [label "a"]) ∧
      args.flatMap nodesGiven = [label "a", label "b"] ∧
      label "b" ∉ childValues (node "row" [] [label "a"]) := by
  refine ⟨rfl, rfl, ?_⟩
  rw [childValues_node]
  simp [label, node]

end ScriptHost.Factory
