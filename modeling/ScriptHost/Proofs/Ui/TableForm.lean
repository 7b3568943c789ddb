import ScriptHost.Proofs.Ui.Built

/-!
# Trees written as tables and read back

A tree is written as marked maps.  The reader takes an empty list for no children, and nothing else is
lost: a tree is read back with no children in the place of each empty list of them.  What it reads has
no such list, and is a fixed point of writing and reading.
-/

set_option autoImplicit false

namespace ScriptHost.UiNode

mutual

def trimmed : UiNode → UiNode
  -- the tree with no children in the place of each empty list of them, at every depth
  | .mk tag props children => .mk tag props (trimmedChildren children)

def trimmedChildren : Option (List UiNode) → Option (List UiNode)
  | none => none
  | some [] => none
  | some (n :: rest) => some (n.trimmed :: trimmedItems rest)

def trimmedItems : List UiNode → List UiNode
  | [] => []
  | n :: rest => n.trimmed :: trimmedItems rest

end

theorem tagOf_written (tag : String) (props : Dict Value) (children : Option (List UiNode)) :
    tagOf (toValue (.mk tag props children)) = .ok tag := by
  cases children <;> rfl

/-- Props are read as they were given: whatever stands in them is not looked at. -/
theorem propsOf_written (tag : String) (props : Dict Value) (children : Option (List UiNode)) :
    propsOf tag (toValue (.mk tag props children)) = .ok props := by
  cases children <;> rfl

theorem isMarked_toValue (n : UiNode) : isMarked n.toValue = true := by
  cases n
  rfl

theorem childrenIn_written (tag name : String) (props : Dict Value) (children : Option (List UiNode)) :
    childrenIn tag (("__ui", .bool true) :: (childrenMember children
        ++ [("props", .map props), ("type", .string name)])) =
      match children with
      | none => .ok none
      | some items => childrenOf tag (.array (itemValues items)) := by
  cases children <;> rfl

mutual

theorem ofValue_toValue (n : UiNode) : ofValue n.toValue = .ok (some n.trimmed) := by
  match n with
  | .mk tag props children =>
    have hmarked := isMarked_toValue (.mk tag props children)
    have htag := tagOf_written tag props children
    have hprops := propsOf_written tag props children
    rw [toValue] at hmarked htag hprops ⊢
    simp only [ofValue, hmarked, htag, hprops, childrenIn_written, if_true]
    match children with
    | none => rfl
    | some [] => rfl
    | some (m :: rest) =>
      have hnodes := nodesOf_itemValues tag (m :: rest)
      simp only [itemValues] at hnodes
      simp only [itemValues, childrenOf, List.isEmpty_cons, Bool.false_eq_true, if_false, hnodes]
      rfl

theorem nodesOf_itemValues (tag : String) (nodes : List UiNode) :
    nodesOf tag (itemValues nodes) = .ok (trimmedItems nodes) := by
  match nodes with
  | [] => rfl
  | n :: rest =>
    rw [itemValues, nodesOf, ofValue_toValue n]
    simp only [nodesOf_itemValues tag rest, trimmedItems]

end

theorem nodesOf_cons {tag : String} {v : Value} {rest : List Value} {nodes : List UiNode}
    (h : nodesOf tag (v :: rest) = .ok nodes) :
    ∃ n tail, ofValue v = .ok (some n) ∧ nodesOf tag rest = .ok tail ∧ nodes = n :: tail := by
  simp only [nodesOf] at h
  split at h
  · cases h
  · cases h
  · next n hn =>
    split at h
    · cases h
    · next tail htail => exact ⟨n, tail, hn, htail, (Except.ok.inj h).symm⟩

mutual

theorem trimmed_iff (n : UiNode) : n.trimmed = n ↔ ∀ m ∈ n.walk, m.children? ≠ some [] := by
  match n with
  | .mk tag props none => simp [trimmed, trimmedChildren, walk, walkChildren, children?]
  | .mk tag props (some []) => simp [trimmed, trimmedChildren, walk, children?]
  | .mk tag props (some (m :: rest)) =>
    have hitems := trimmedItems_iff (m :: rest)
    simp only [trimmedItems] at hitems
    simp [trimmed, trimmedChildren, walk, walkChildren, children?, hitems]

theorem trimmedItems_iff (nodes : List UiNode) :
    trimmedItems nodes = nodes ↔ ∀ m ∈ walkItems nodes, m.children? ≠ some [] := by
  match nodes with
  | [] => simp [trimmedItems, walkItems]
  | n :: rest =>
    rw [trimmedItems, List.cons.injEq, trimmed_iff n, trimmedItems_iff rest, walkItems,
      List.forall_mem_append]

end

mutual

/-- A tree that is read has no empty list of children, whichever table it is read from. -/
theorem ofValue_trimmed {v : Value} {n : UiNode} (h : ofValue v = .ok (some n)) : n.trimmed = n := by
  match v with
  | .map members =>
    simp only [ofValue] at h
    split at h
    · split at h
      · cases h
      · next tag _ =>
        split at h
        · cases h
        · next props _ =>
          split at h
          · cases h
          · next children hchildren =>
            obtain rfl : UiNode.mk tag props children = n := by simpa using h
            rw [trimmed, childrenIn_trimmed hchildren]
    · cases h
  | .nil | .bool _ | .int _ | .float _ | .string _ | .array _ | .function _ | .callable _ =>
    simp [ofValue] at h

theorem childrenIn_trimmed {tag : String} {members : List (String × Value)}
    {children : Option (List UiNode)} (h : childrenIn tag members = .ok children) :
    trimmedChildren children = children := by
  match members with
  | [] =>
    obtain rfl := Except.ok.inj h
    rfl
  | (key, v) :: rest =>
    simp only [childrenIn] at h
    split at h
    · exact childrenOf_trimmed h
    · exact childrenIn_trimmed h

theorem childrenOf_trimmed {tag : String} {v : Value} {children : Option (List UiNode)}
    (h : childrenOf tag v = .ok children) : trimmedChildren children = children := by
  match v with
  | .array [] =>
    obtain rfl := Except.ok.inj h
    rfl
  | .array (item :: rest) =>
    simp only [childrenOf, List.isEmpty_cons, Bool.false_eq_true, if_false] at h
    split at h
    · cases h
    · next nodes hnodes =>
      obtain rfl := Except.ok.inj h
      have hsame := nodesOf_trimmed hnodes
      obtain ⟨n, tail, -, -, rfl⟩ := nodesOf_cons hnodes
      exact congrArg some hsame
  | .map members =>
    simp only [childrenOf] at h
    split at h
    · obtain rfl := Except.ok.inj h
      rfl
    · cases h
  | .nil =>
    obtain rfl := Except.ok.inj h
    rfl
  | .bool _ | .int _ | .float _ | .string _ | .function _ | .callable _ => simp [childrenOf] at h

theorem nodesOf_trimmed {tag : String} {items : List Value} {nodes : List UiNode}
    (h : nodesOf tag items = .ok nodes) : trimmedItems nodes = nodes := by
  match items with
  | [] =>
    obtain rfl := Except.ok.inj h
    rfl
  | v :: rest =>
    obtain ⟨n, tail, hn, htail, rfl⟩ := nodesOf_cons h
    rw [trimmedItems, ofValue_trimmed hn, nodesOf_trimmed htail]

end

/-- A tree written as a table is read back with each empty list of children left out, so as it was
exactly when no node in it has one.  And every tree that is read from a table, however that table was
made, is read back as it is. -/
theorem table_round_trip (n : UiNode) :
    ofValue n.toValue = .ok (some n.trimmed) ∧
      (ofValue n.toValue = .ok (some n) ↔ ∀ m ∈ n.walk, m.children? ≠ some []) ∧
      ∀ v, ofValue v = .ok (some n) → ofValue n.toValue = .ok (some n) := by
  have hread := ofValue_toValue n
  have hsame : ofValue n.toValue = .ok (some n) ↔ n.trimmed = n := by
    rw [hread, Except.ok.injEq, Option.some.injEq]
  refine ⟨hread, hsame.trans n.trimmed_iff, fun v hv => ?_⟩
  exact hsame.mpr (ofValue_trimmed hv)

-- a table that no tree is written as, and that is read all the same
example : ofValue (.map [("__ui", .bool true), ("children", .map []), ("type", .string "row")]) =
    .ok (some (.make "row")) := rfl

end ScriptHost.UiNode
