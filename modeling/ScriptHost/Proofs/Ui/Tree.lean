import ScriptHost.Ui.Node
import ScriptHost.Proofs.Crossing.Handles

/-!
# Handles in a tree

A tree that is read from a value has its handles from there, each at most as often.
-/

set_option autoImplicit false

namespace ScriptHost.UiNode

def childHandles : Option (List UiNode) → List Handle
  | none => []
  | some nodes => nodes.flatMap handles

theorem walkItems_handles (nodes : List UiNode) :
    (walkItems nodes).flatMap (fun m => Value.memberHandles m.props) = nodes.flatMap handles := by
  induction nodes with
  | nil => rfl
  | cons n rest ih => rw [walkItems, List.flatMap_append, ih, List.flatMap_cons, handles]

theorem handles_mk (tag : String) (props : Dict Value) (children : Option (List UiNode)) :
    handles (.mk tag props children) = Value.memberHandles props ++ childHandles children := by
  rw [handles, walk, List.flatMap_cons]
  congr 1
  cases children with
  | none => rfl
  | some nodes => exact walkItems_handles nodes

def propHandles (members : Dict Value) : List Handle :=
  match Dict.find? members "props" with
  | some v => v.handles
  | none => []

theorem propHandles_subperm (members : Dict Value) :
    (propHandles members).Subperm (Value.memberHandles members) := by
  induction members with
  | nil => exact List.nil_subperm
  | cons e rest ih =>
    obtain ⟨key, v⟩ := e
    simp only [propHandles, Dict.find?, Value.memberHandles] at ih ⊢
    by_cases hkey : key = "props"
    · rw [if_pos hkey]
      exact (List.sublist_append_left _ _).subperm
    · rw [if_neg hkey]
      exact ih.trans (List.sublist_append_right _ _).subperm

theorem propsOf_handles (tag : String) (members props : Dict Value)
    (h : propsOf tag (.map members) = .ok props) :
    (Value.memberHandles props).Subperm (propHandles members) := by
  simp only [propsOf, Value.get?] at h
  rw [propHandles]
  split at h
  · obtain rfl := Except.ok.inj h
    exact List.nil_subperm
  · obtain rfl := Except.ok.inj h
    exact List.nil_subperm
  · next found hf =>
    obtain rfl := Except.ok.inj h
    rw [hf]
    exact List.Subperm.refl _
  · split at h
    · obtain rfl := Except.ok.inj h
      exact List.nil_subperm
    · simp at h

mutual

theorem ofValue_handles (v : Value) (n : UiNode) (h : ofValue v = .ok (some n)) :
    n.handles.Subperm v.handles := by
  match v with
  | .map members =>
    simp only [ofValue] at h
    split at h
    · split at h
      · simp at h
      · next tag _ =>
        split at h
        · simp at h
        · next props hprops =>
          split at h
          · simp at h
          · next children hchildren =>
            obtain rfl : UiNode.mk tag props children = n := by simpa using h
            have hin := childrenIn_handles tag members children hchildren
            have hp := propsOf_handles tag members props hprops
            rw [handles_mk, Value.handles]
            refine List.Subperm.trans ?_ hin
            exact List.perm_append_comm.subperm.trans ((List.Subperm.refl _).append hp)
    · simp at h
  | .nil => simp [ofValue] at h
  | .bool _ => simp [ofValue] at h
  | .int _ => simp [ofValue] at h
  | .float _ => simp [ofValue] at h
  | .string _ => simp [ofValue] at h
  | .array _ => simp [ofValue] at h
  | .function _ => simp [ofValue] at h
  | .callable _ => simp [ofValue] at h

/-- Props and children are members of different names. -/
theorem childrenIn_handles (tag : String) (members : List (String × Value))
    (children : Option (List UiNode)) (h : childrenIn tag members = .ok children) :
    (childHandles children ++ propHandles members).Subperm (Value.memberHandles members) := by
  match members with
  | [] =>
    obtain rfl := Except.ok.inj h
    exact List.nil_subperm
  | (key, v) :: rest =>
    simp only [childrenIn] at h
    simp only [propHandles, Dict.find?, Value.memberHandles]
    by_cases hkey : key = "children"
    · rw [if_pos hkey] at h
      have hne : key ≠ "props" := by
        rw [hkey]
        decide
      rw [if_neg hne]
      exact (childrenOf_handles tag v children h).append (propHandles_subperm rest)
    · rw [if_neg hkey] at h
      have hrest := childrenIn_handles tag rest children h
      by_cases hprops : key = "props"
      · rw [if_pos hprops]
        have hleft := (List.sublist_append_left _ _).subperm.trans hrest
        exact List.perm_append_comm.subperm.trans ((List.Subperm.refl _).append hleft)
      · rw [if_neg hprops]
        exact hrest.trans (List.sublist_append_right _ _).subperm

theorem childrenOf_handles (tag : String) (v : Value) (children : Option (List UiNode))
    (h : childrenOf tag v = .ok children) : (childHandles children).Subperm v.handles := by
  match v with
  | .array items =>
    simp only [childrenOf] at h
    split at h
    · obtain rfl := Except.ok.inj h
      exact List.nil_subperm
    · split at h
      · simp at h
      · next nodes hnodes =>
        obtain rfl := Except.ok.inj h
        exact nodesOf_handles tag items nodes hnodes
  | .map members =>
    simp only [childrenOf] at h
    split at h
    · obtain rfl := Except.ok.inj h
      exact List.nil_subperm
    · simp at h
  | .nil =>
    obtain rfl := Except.ok.inj h
    exact List.nil_subperm
  | .bool _ => simp [childrenOf] at h
  | .int _ => simp [childrenOf] at h
  | .float _ => simp [childrenOf] at h
  | .string _ => simp [childrenOf] at h
  | .function _ => simp [childrenOf] at h
  | .callable _ => simp [childrenOf] at h

theorem nodesOf_handles (tag : String) (items : List Value) (nodes : List UiNode)
    (h : nodesOf tag items = .ok nodes) :
    (nodes.flatMap handles).Subperm (Value.itemHandles items) := by
  match items with
  | [] =>
    obtain rfl := Except.ok.inj h
    exact List.nil_subperm
  | v :: rest =>
    simp only [nodesOf] at h
    split at h
    · simp at h
    · simp at h
    · next n hn =>
      split at h
      · simp at h
      · next tail htail =>
        obtain rfl := Except.ok.inj h
        rw [List.flatMap_cons, Value.itemHandles]
        exact (ofValue_handles v n hn).append (nodesOf_handles tag rest tail htail)

end

end ScriptHost.UiNode
