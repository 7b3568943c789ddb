import ScriptHost.Proofs.Json.Records
import ScriptHost.Proofs.Ui.Built
import ScriptHost.Proofs.Value.JsonForms
import ScriptHost.Proofs.Value.Rendered

/-!
# The two JSON forms of a tree

A tree is written as a record, which refuses functions, or for a renderer, with a word in their place.
Both write the same members of a node and differ in their order only, so both are one form with the
members arranged by a rule, and a tree is read back from that form whatever the rule is.
-/

set_option autoImplicit false

namespace ScriptHost

namespace Json

theorem depth_item {items : List Json} {j : Json} (h : j ∈ items) : j.depth ≤ itemsDepth items := by
  induction items with
  | nil => cases h
  | cons i rest ih =>
    rw [itemsDepth]
    rcases List.mem_cons.mp h with rfl | h
    · exact Nat.le_max_left _ _
    · exact (ih h).trans (Nat.le_max_right _ _)

theorem depth_member {members : List (String × Json)} {name : String} {j : Json}
    (h : (name, j) ∈ members) : j.depth ≤ membersDepth members := by
  induction members with
  | nil => cases h
  | cons e rest ih =>
    rw [membersDepth]
    rcases List.mem_cons.mp h with rfl | h
    · exact Nat.le_max_left _ _
    · exact (ih h).trans (Nat.le_max_right _ _)

end Json

namespace UiNode

mutual

def mapProps (f : Dict Value → Dict Value) : UiNode → UiNode
  | .mk tag props children => .mk tag (f props) (mapPropsIn f children)

def mapPropsIn (f : Dict Value → Dict Value) : Option (List UiNode) → Option (List UiNode)
  | none => none
  | some nodes => some (mapPropsEach f nodes)

def mapPropsEach (f : Dict Value → Dict Value) : List UiNode → List UiNode
  | [] => []
  | n :: rest => n.mapProps f :: mapPropsEach f rest

end

def literal (n : UiNode) : UiNode := n.mapProps Value.literalMembers

def named (n : UiNode) : UiNode := n.mapProps Value.namedMembers

mutual

theorem mapProps_iff (f : Dict Value → Dict Value) (n : UiNode) :
    n.mapProps f = n ↔ ∀ m ∈ n.walk, f m.props = m.props := by
  match n with
  | .mk tag props none => simp [mapProps, mapPropsIn, walk, walkChildren, UiNode.props]
  | .mk tag props (some nodes) =>
    simp [mapProps, mapPropsIn, walk, walkChildren, UiNode.props, mapPropsEach_iff f nodes]

theorem mapPropsEach_iff (f : Dict Value → Dict Value) (nodes : List UiNode) :
    mapPropsEach f nodes = nodes ↔ ∀ m ∈ walkItems nodes, f m.props = m.props := by
  match nodes with
  | [] => simp [mapPropsEach, walkItems]
  | n :: rest =>
    rw [mapPropsEach, List.cons.injEq, mapProps_iff f n, mapPropsEach_iff f rest, walkItems,
      List.forall_mem_append]

end

mutual

@[simp] theorem walk_mapProps (f : Dict Value → Dict Value) (n : UiNode) :
    (n.mapProps f).walk = n.walk.map (mapProps f) := by
  match n with
  | .mk tag props none => rfl
  | .mk tag props (some nodes) =>
    rw [mapProps, mapPropsIn, walk, walkChildren, walkItems_mapProps f nodes]
    rfl

@[simp] theorem walkItems_mapProps (f : Dict Value → Dict Value) (nodes : List UiNode) :
    walkItems (mapPropsEach f nodes) = (walkItems nodes).map (mapProps f) := by
  match nodes with
  | [] => rfl
  | n :: rest =>
    rw [mapPropsEach, walkItems, walkItems, walk_mapProps f n, walkItems_mapProps f rest, List.map_append]

end

theorem props_mapProps (f : Dict Value → Dict Value) (n : UiNode) : (n.mapProps f).props = f n.props := by
  cases n
  rfl

mutual

def written (arrange : List (String × Json) → List (String × Json)) : UiNode → Json
  | .mk tag props children =>
    .obj (arrange (("type", .str tag) :: ("props", (Value.map props).toJson)
      :: writtenIn arrange children))

def writtenIn (arrange : List (String × Json) → List (String × Json)) :
    Option (List UiNode) → List (String × Json)
  | none => []
  | some nodes => [("children", .arr (writtenEach arrange nodes))]

def writtenEach (arrange : List (String × Json) → List (String × Json)) : List UiNode → List Json
  | [] => []
  | n :: rest => n.written arrange :: writtenEach arrange rest

end

mutual

theorem toJson_eq (n : UiNode) : n.toJson = n.written List.reverse := by
  match n with
  | .mk tag props none => rfl
  | .mk tag props (some nodes) =>
    rw [toJson, childrenJson, itemsJson_eq nodes]
    rfl

theorem itemsJson_eq (nodes : List UiNode) : itemsJson nodes = writtenEach List.reverse nodes := by
  match nodes with
  | [] => rfl
  | n :: rest => rw [itemsJson, writtenEach, toJson_eq n, itemsJson_eq rest]

end

def holdsFunction (n : UiNode) : Bool := Value.membersHoldFunction n.props

mutual

theorem serialize_eq (n : UiNode) :
    n.serialize? = if n.walk.any holdsFunction then none else some (n.written id) := by
  match n with
  | .mk tag props none =>
    rw [serialize?, Value.serialize_eq, serializeChildren?, walk, walkChildren, List.any_cons, List.any_nil,
      Bool.or_false, holdsFunction, UiNode.props, Value.holdsFunction]
    cases Value.membersHoldFunction props <;> rfl
  | .mk tag props (some nodes) =>
    rw [serialize?, Value.serialize_eq, serializeChildren?, serializeItems_eq nodes, walk, walkChildren,
      List.any_cons, holdsFunction, UiNode.props, Value.holdsFunction]
    cases Value.membersHoldFunction props <;> cases (walkItems nodes).any holdsFunction <;> rfl

theorem serializeItems_eq (nodes : List UiNode) :
    serializeItems? nodes =
      if (walkItems nodes).any holdsFunction then none else some (writtenEach id nodes) := by
  match nodes with
  | [] => rfl
  | n :: rest =>
    rw [serializeItems?, serialize_eq n, serializeItems_eq rest, walkItems, List.any_append, writtenEach]
    cases n.walk.any holdsFunction <;> cases (walkItems rest).any holdsFunction <;> rfl

end

def Arranges (arrange : List (String × Json) → List (String × Json)) : Prop :=
  ∀ members, (arrange members).Perm members

section
variable {arrange : List (String × Json) → List (String × Json)}

mutual

theorem written_sorted (h : Arranges arrange) (n : UiNode) :
    (n.written arrange).sorted = (n.written id).sorted := by
  match n with
  | .mk tag props none =>
    rw [written, written, Json.sorted_obj, Json.sorted_obj]
    refine congrArg Json.obj (Dict.ofList_perm_eq ((h _).map _).symm ?_).symm
    simp [writtenIn]
  | .mk tag props (some nodes) =>
    rw [written, written, Json.sorted_obj, Json.sorted_obj]
    have hnodes : (Json.arr (writtenEach arrange nodes)).sorted = (Json.arr (writtenEach id nodes)).sorted := by
      simp [writtenEach_sorted h nodes]
    refine congrArg Json.obj (Dict.ofList_perm_eq (.trans ?_ ((h _).map _).symm) ?_).symm
    · simp [writtenIn, hnodes]
    · simp [writtenIn]

theorem writtenEach_sorted (h : Arranges arrange) (nodes : List UiNode) :
    (writtenEach arrange nodes).map Json.sorted = (writtenEach id nodes).map Json.sorted := by
  match nodes with
  | [] => rfl
  | n :: rest =>
    rw [writtenEach, writtenEach, List.map_cons, List.map_cons, written_sorted h n, writtenEach_sorted h rest]

end

theorem dictEntries_ofJson (members : List (String × Json)) :
    Decoder.dictEntries (fun j => .ok (Value.ofJson j)) members = .ok (Value.ofJsonMembers members) := by
  induction members with
  | nil => rfl
  | cons e rest ih =>
    rw [Decoder.dictEntries, ih]
    rfl

theorem dict_toJson {props : Dict Value} (h : Value.membersHoldFunction props = false) :
    Decoder.dict (fun j => .ok (Value.ofJson j)) (Value.map props).toJson =
      .ok (Value.literalMembers props) := by
  rw [Value.toJson, Decoder.dict, dictEntries_ofJson, Value.ofJsonMembers_membersJson h]

/-- A node is read from its members in any order, if its children are. -/
theorem decodeWithin_node (h : Arranges arrange) {tag : String} {props : Dict Value}
    {children read : Option (List UiNode)} {depth : Nat} (hplain : Value.membersHoldFunction props = false)
    (hchildren : ∀ members, (members.map (·.1)).Nodup →
      members.Perm (("type", .str tag) :: ("props", (Value.map props).toJson) :: writtenIn arrange children) →
      (Fields.optional "children" (.optional (.list (decodeWithin depth))) none).Reads members read) :
    decodeWithin (depth + 1) (written arrange (.mk tag props children)) =
      .ok (.mk tag (Value.literalMembers props) read) := by
  have hperm := h (("type", .str tag) :: ("props", (Value.map props).toJson) :: writtenIn arrange children)
  have hkeys := ((hperm.map (·.1)).nodup_iff).mpr (by cases children <;> simp [writtenIn])
  have htag : (Fields.required "type" .string).Reads _ tag :=
    Fields.required_member hkeys (hperm.mem_iff.mpr List.mem_cons_self) rfl
  have hprops : (Fields.optional "props" (.dict fun j => .ok (Value.ofJson j)) []).Reads _
      (Value.literalMembers props) :=
    Fields.optional_member hkeys (hperm.mem_iff.mpr (List.mem_cons_of_mem _ List.mem_cons_self))
      (dict_toJson hplain) []
  exact Fields.decode_reads (Fields.seq_reads (Fields.seq_reads (Fields.map_reads UiNode.mk htag) hprops)
    (hchildren _ hkeys hperm)) "UiNode"

mutual

theorem decodeWithin_written (h : Arranges arrange) (n : UiNode) (hn : n.walk.any holdsFunction = false)
    (depth : Nat) (hdepth : (n.written arrange).depth < depth) :
    decodeWithin depth (n.written arrange) = .ok n.literal := by
  match n, depth with
  | .mk tag props none, depth + 1 =>
    rw [walk, List.any_cons, Bool.or_eq_false_iff] at hn
    refine decodeWithin_node h hn.1 fun members _ hperm => Fields.optional_none (fun hmem => ?_) none
    exact absurd ((hperm.map (·.1)).mem_iff.mp hmem) (by simp [writtenIn])
  | .mk tag props (some nodes), depth + 1 =>
    rw [walk, List.any_cons, Bool.or_eq_false_iff] at hn
    have hmem : ("children", .arr (writtenEach arrange nodes)) ∈ arrange (("type", .str tag)
        :: ("props", (Value.map props).toJson) :: writtenIn arrange (some nodes)) :=
      (h _).mem_iff.mpr (by simp [writtenIn])
    -- a child is two levels below its node, within the members and within the list
    have hitems : ∀ j ∈ writtenEach arrange nodes, j.depth < depth := by
      intro j hj
      have hitem := Json.depth_item hj
      have hmember := Json.depth_member hmem
      simp only [written, Json.depth] at hdepth hmember
      omega
    have hlist : Decoder.optional (.list (decodeWithin depth)) (.arr (writtenEach arrange nodes)) =
        .ok (some (mapPropsEach Value.literalMembers nodes)) :=
      congrArg (Except.map some) (listItems_written h nodes hn.2 depth hitems)
    refine decodeWithin_node h hn.1 fun members hkeys hperm => ?_
    exact Fields.optional_member hkeys (hperm.mem_iff.mpr (by simp [writtenIn])) hlist none

theorem listItems_written (h : Arranges arrange) (nodes : List UiNode)
    (hn : (walkItems nodes).any holdsFunction = false) (depth : Nat)
    (hdepth : ∀ j ∈ writtenEach arrange nodes, j.depth < depth) :
    Decoder.listItems (decodeWithin depth) (writtenEach arrange nodes) =
      .ok (mapPropsEach Value.literalMembers nodes) := by
  match nodes with
  | [] => rfl
  | n :: rest =>
    rw [walkItems, List.any_append, Bool.or_eq_false_iff] at hn
    rw [writtenEach, List.forall_mem_cons] at hdepth
    rw [writtenEach, Decoder.listItems, decodeWithin_written h n hn.1 depth hdepth.1]
    simp only [listItems_written h rest hn.2 depth hdepth.2, mapPropsEach, literal]

end

theorem decode_written (h : Arranges arrange) {n : UiNode} (hn : n.walk.any holdsFunction = false) :
    decode (n.written arrange) = .ok n.literal :=
  decodeWithin_written h n hn _ (Nat.lt_succ_self _)

end

mutual

theorem toJson_named (n : UiNode) : n.named.toJson = n.toJson := by
  match n with
  | .mk tag props children =>
    have hprops : (Value.map (Value.namedMembers props)).toJson = (Value.map props).toJson :=
      Value.toJson_named (.map props)
    have hchildren : childrenJson (mapPropsIn Value.namedMembers children) = childrenJson children := by
      match children with
      | none => rfl
      | some nodes => rw [mapPropsIn, childrenJson, childrenJson, itemsJson_named nodes]
    rw [named, mapProps, toJson, toJson, hprops, hchildren]

theorem itemsJson_named (nodes : List UiNode) :
    itemsJson (mapPropsEach Value.namedMembers nodes) = itemsJson nodes := by
  match nodes with
  | [] => rfl
  | n :: rest =>
    have hn := toJson_named n
    rw [named] at hn
    rw [mapPropsEach, itemsJson, itemsJson, hn, itemsJson_named rest]

end

theorem named_plain (n : UiNode) : n.named.walk.any holdsFunction = false := by
  rw [named, walk_mapProps, List.any_eq_false]
  rintro _ hm
  obtain ⟨m, -, rfl⟩ := List.mem_map.mp hm
  rw [holdsFunction, props_mapProps, Value.namedMembers_plain]
  exact Bool.false_ne_true

def WellFormed (n : UiNode) : Prop := ∀ m ∈ n.walk, (Value.map m.props).WellFormed

mutual

theorem toJson_sorted (n : UiNode) (h : n.WellFormed) : n.toJson.sorted = n.toJson := by
  match n with
  | .mk tag props children =>
    obtain ⟨hprops, hbelow⟩ := List.forall_mem_cons.mp h
    have hchildren : (childrenJson children).map (fun e => (e.1, e.2.sorted)) = childrenJson children := by
      match children with
      | none => rfl
      | some nodes =>
        rw [childrenJson, List.map_singleton, Json.sorted_arr, itemsJson_sorted nodes hbelow]
    have hordered : Dict.Ordered
        (childrenJson children ++ [("props", (Value.map props).toJson), ("type", .str tag)]) := by
      have hnames : ["children", "props", "type"].Pairwise (· < ·) := by decide
      cases children with
      | none => exact List.pairwise_map.mp (List.pairwise_cons.mp hnames).2
      | some nodes => exact List.pairwise_map.mp hnames
    have hsorted : (Value.map props).toJson.sorted = (Value.map props).toJson := Value.toJson_sorted hprops
    have htail : [("props", (Value.map props).toJson), ("type", Json.str tag)].map
        (fun e => (e.1, e.2.sorted)) = [("props", (Value.map props).toJson), ("type", .str tag)] := by
      rw [List.map_cons, List.map_singleton, hsorted]
      rfl
    rw [toJson, Json.sorted_obj, List.map_append, hchildren, htail, Dict.ofList_of_ordered hordered]

theorem itemsJson_sorted (nodes : List UiNode) (h : ∀ m ∈ walkItems nodes, (Value.map m.props).WellFormed) :
    (itemsJson nodes).map Json.sorted = itemsJson nodes := by
  match nodes with
  | [] => rfl
  | n :: rest =>
    obtain ⟨hn, hrest⟩ := List.forall_mem_append.mp h
    rw [itemsJson, List.map_cons, toJson_sorted n hn, itemsJson_sorted rest hrest]

end

/-- A tree is serialized exactly when no prop of a node in it holds a function, and then as the JSON value
that it is rendered as, the order of members apart.  Either of the two is read back as the tree, no children
and an empty list of them told apart, with nil for each number in its props that has no literal, so as it
was exactly when all numbers have one.  Every tree is rendered as the tree with a word for each function is
serialized.  What is rendered of a tree whose maps are in order has its members in order. -/
theorem json_forms (n : UiNode) :
    (n.serialize?.isSome = true ↔ ∀ m ∈ n.walk, ∀ e ∈ m.props, e.2.holdsFunction = false) ∧
      (∀ j, n.serialize? = some j →
        j.sorted = n.toJson.sorted ∧ decode j = .ok n.literal ∧ decode n.toJson = .ok n.literal) ∧
      (n.literal = n ↔ ∀ m ∈ n.walk, ∀ e ∈ m.props, e.2.Finite) ∧
      (∃ j, n.named.serialize? = some j ∧ j.sorted = n.toJson.sorted) ∧
      (n.WellFormed → n.toJson.sorted = n.toJson) := by
  have hplain : n.walk.any holdsFunction = false ↔
      ∀ m ∈ n.walk, ∀ e ∈ m.props, e.2.holdsFunction = false := by
    simp only [List.any_eq_false, Bool.not_eq_true, holdsFunction, Value.membersHoldFunction_iff]
  have hsame : n.toJson.sorted = (n.written id).sorted := by
    rw [toJson_eq, written_sorted List.reverse_perm n]
  refine ⟨?_, ?_, ?_, ?_, n.toJson_sorted⟩
  · rw [← hplain, serialize_eq]
    cases n.walk.any holdsFunction <;> simp
  · intro j hj
    rw [serialize_eq] at hj
    split at hj
    · cases hj
    · next hn =>
      obtain rfl := Option.some.inj hj
      have hn := eq_false_of_ne_true hn
      have hrendered := decode_written List.reverse_perm hn
      rw [← toJson_eq] at hrendered
      exact ⟨hsame.symm, decode_written (fun _ => .refl _) hn, hrendered⟩
  · rw [literal, mapProps_iff]
    simp only [Value.literalMembers_iff]
  · refine ⟨n.named.written id, ?_, ?_⟩
    · rw [serialize_eq, named_plain]
      rfl
    · rw [← toJson_named n, toJson_eq n.named, written_sorted List.reverse_perm]

end UiNode

end ScriptHost
