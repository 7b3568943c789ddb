import ScriptHost.Ui.Factory
import Mathlib.Data.List.Forall2

/-!
# Trees that factories build

A factory writes a node as a marked map and `UiNode.ofValue` reads marked maps; the two are separate
functions of the same members.  A call that succeeds leaves three facts to know: the props, the nodes
that the arguments carry, and that these nodes are marked.  From them a node that is built of nodes
that read back reads back itself, and so does every tree that factories alone have made.
-/

set_option autoImplicit false

namespace ScriptHost

namespace UiNode

def Reads (v : Value) (n : UiNode) : Prop := ofValue v = .ok (some n) ∧ n.toValue = v

/-- The catalogue has the tag, a component that takes no children has none, and no children are not an
empty list of them. -/
structure WellMade (n : UiNode) : Prop where
  tag : n.tag ∈ Component.tags
  leaf : ∀ c, Component.find? n.tag = some c → c.children = false → n.children? = none
  some : n.children? ≠ some []

theorem walkItems_flatMap (nodes : List UiNode) : walkItems nodes = nodes.flatMap walk := by
  induction nodes with
  | nil => rfl
  | cons n rest ih => rw [walkItems, ih, List.flatMap_cons]

theorem walk_children (n : UiNode) : n.walk = n :: n.children.flatMap walk := by
  obtain ⟨tag, props, children⟩ := n
  cases children with
  | none => rfl
  | some nodes => rw [walk, walkChildren, walkItems_flatMap]; rfl

theorem nodesOf_reads (tag : String) {items : List Value} {nodes : List UiNode}
    (h : List.Forall₂ Reads items nodes) :
    nodesOf tag items = .ok nodes ∧ itemValues nodes = items := by
  induction h with
  | nil => exact ⟨rfl, rfl⟩
  | cons hread _ ih =>
    rw [nodesOf, hread.1, itemValues, hread.2, ih.2]
    simp only [ih.1, and_self]

end UiNode

namespace Factory
open UiNode (isMarked Reads WellMade)

def nodesIn (v : Value) : List Value :=
  if isMarked v then [v]
  else match v with
    | .array items => items
    | _ => []

def isNodes (v : Value) : Bool := isMarked v || (!(nodesIn v).isEmpty && (nodesIn v).all isMarked)

def first (args : List Value) : Value := args[0]?.getD .nil

def second (args : List Value) : Value := args[1]?.getD .nil

def carrier (args : List Value) : Value :=
  -- the argument that carries the children: the first if it is made of nodes, else the second
  if isNodes (first args) then first args else second args

def carried (args : List Value) : List Value := nodesIn (carrier args)

def givenProps (v : Value) : Dict Value :=
  -- a map is the props, a scalar the prop `value`; nil, nodes and a list are none
  if isMarked v then []
  else match v with
    | .nil => []
    | .map props => props
    | .array _ => []
    | scalar => [("value", scalar)]

@[simp] theorem nodesIn_marked {v : Value} (h : isMarked v = true) : nodesIn v = [v] := if_pos h

@[simp] theorem isMarked_array (items : List Value) : isMarked (.array items) = false := rfl

theorem split_ok {tag : String} {args : List Value} {props : Dict Value} {rest : Value}
    (h : split tag (first args) (second args) = .ok (props, rest)) :
    props = givenProps (first args) ∧ rest = carrier args := by
  unfold carrier
  generalize first args = a at h ⊢
  generalize second args = b at h ⊢
  by_cases hmark : isMarked a = true
  · simp only [split, if_pos hmark, Except.ok.injEq, Prod.mk.injEq] at h
    simp [givenProps, isNodes, hmark, ← h.1, ← h.2]
  · have hplain : isMarked a = false := by simpa using hmark
    simp only [split, hplain, Bool.false_eq_true, if_false] at h
    cases a with
    | array items =>
      by_cases hempty : items.isEmpty = true
      · simp only [hempty, if_true, Except.ok.injEq, Prod.mk.injEq] at h
        simp [givenProps, isNodes, nodesIn, isMarked_array, hempty, ← h.1, ← h.2]
      · by_cases hall : items.all isMarked = true
        · simp only [hempty, hall, if_true, Bool.false_eq_true, if_false, Except.ok.injEq,
            Prod.mk.injEq] at h
          simp [givenProps, isNodes, nodesIn, hempty, hall, ← h.1, ← h.2]
        · simp [hempty, hall] at h
    | function f => simp at h
    | callable k => simp at h
    | _ =>
      simp only [Except.ok.injEq, Prod.mk.injEq] at h
      simp [givenProps, isNodes, nodesIn, hplain, ← h.1, ← h.2]

theorem childList_ok {tag : String} {v : Value} {children : List Value}
    (h : childList tag v = .ok children) : children = nodesIn v := by
  by_cases hmark : isMarked v = true
  · simp only [childList, if_pos hmark, Except.ok.injEq] at h
    rw [nodesIn_marked hmark, ← h]
  · have hplain : isMarked v = false := by simpa using hmark
    simp only [childList, hplain, Bool.false_eq_true, if_false] at h
    cases v with
    | array items =>
      cases hbad : items.findIdx? fun c => !isMarked c with
      | some i => simp [hbad] at h
      | none =>
        simp only [hbad, Except.ok.injEq] at h
        simp [nodesIn, h]
    | map members =>
      cases members with
      | nil => simpa [Value.isEmptyTable, nodesIn, hplain] using h.symm
      | cons e rest => simp [Value.isEmptyTable] at h
    | nil => simpa [nodesIn, hplain] using h.symm
    | _ => simp [Value.isEmptyTable] at h

/-- A call that succeeds writes a node of the given props over the carried nodes, and a component that
takes no children was given none. -/
theorem build_ok {tag : String} {args : List Value} {v : Value} (h : build tag args = .ok v) :
    v = node tag (givenProps (first args)) (carried args) ∧
      ∀ c, Component.find? tag = some c → c.children = false → carried args = [] := by
  simp only [build] at h
  split at h
  · simp at h
  · next props rest hsplit =>
    obtain ⟨rfl, rfl⟩ := split_ok hsplit
    split at h
    · simp at h
    · next children hchildren =>
      obtain rfl := childList_ok hchildren
      cases hfind : Component.find? tag with
      | none =>
        simp only [hfind, Bool.and_false, Bool.false_eq_true, if_false] at h
        exact ⟨(Except.ok.inj h).symm, by simp⟩
      | some c =>
        simp only [hfind] at h
        split at h
        · simp at h
        · next hleaf =>
          refine ⟨(Except.ok.inj h).symm, ?_⟩
          rintro _ ⟨⟩ hnone
          simpa [carried, hnone] using hleaf

def childrenOf (nodes : List UiNode) : Option (List UiNode) := if nodes.isEmpty then none else some nodes

theorem node_reads (tag : String) (props : Dict Value) {items : List Value} {nodes : List UiNode}
    (h : List.Forall₂ Reads items nodes) :
    Reads (node tag props items) (.mk tag props (childrenOf nodes)) := by
  obtain ⟨hnodes, hvalues⟩ := UiNode.nodesOf_reads tag h
  cases h with
  | nil => exact ⟨rfl, rfl⟩
  | cons hread hrest =>
    constructor
    · simp [node, UiNode.ofValue, isMarked, UiNode.mark, Value.get?, Dict.find?, UiNode.tagOf,
        UiNode.propsOf, UiNode.childrenIn, UiNode.childrenOf, hnodes, childrenOf]
    · simp [node, UiNode.toValue, UiNode.childrenMember, hvalues, childrenOf]

/-- Values that only factories of the catalogue have made, those they carry included. -/
inductive Built : Value → Prop
  | build {tag : String} {args : List Value} {v : Value} (htag : tag ∈ Component.tags)
      (hcarried : ∀ c ∈ carried args, Built c) (hok : Factory.build tag args = .ok v) : Built v

theorem each_reads {items : List Value}
    (h : ∀ c ∈ items, ∃ n, Reads c n ∧ ∀ m ∈ n.walk, WellMade m) :
    ∃ nodes, List.Forall₂ Reads items nodes ∧ ∀ n ∈ nodes, ∀ m ∈ n.walk, WellMade m := by
  induction items with
  | nil => exact ⟨[], .nil, by simp⟩
  | cons c rest ih =>
    obtain ⟨n, hread, hn⟩ := h c (by simp)
    obtain ⟨nodes, hreads, hnodes⟩ := ih fun d hd => h d (by simp [hd])
    exact ⟨n :: nodes, .cons hread hreads, by simpa using ⟨hn, hnodes⟩⟩

/-- One call over nodes that read back. -/
theorem build_reads {tag : String} {args : List Value} {v : Value} (htag : tag ∈ Component.tags)
    (hcarried : ∀ c ∈ carried args, ∃ n, Reads c n ∧ ∀ m ∈ n.walk, WellMade m)
    (hok : build tag args = .ok v) :
    ∃ n, Reads v n ∧ n.tag = tag ∧ n.props = givenProps (first args) ∧
      List.Forall₂ Reads (carried args) n.children ∧ ∀ m ∈ n.walk, WellMade m := by
  obtain ⟨rfl, hleaf⟩ := build_ok hok
  obtain ⟨nodes, hreads, hmade⟩ := each_reads hcarried
  have hchildren : (childrenOf nodes).getD [] = nodes := by
    cases nodes <;> rfl
  have hhere : WellMade (.mk tag (givenProps (first args)) (childrenOf nodes)) := by
    refine ⟨htag, ?_, ?_⟩
    · intro c hc hnone
      have hnil := hreads.length_eq
      rw [hleaf c hc hnone] at hnil
      rw [List.length_eq_zero_iff.mp hnil.symm]
      rfl
    · cases nodes <;> simp [UiNode.children?, childrenOf]
  refine ⟨.mk tag (givenProps (first args)) (childrenOf nodes), node_reads _ _ hreads, rfl, rfl, ?_, ?_⟩
  · rw [UiNode.children, UiNode.children?, hchildren]
    exact hreads
  · intro m hm
    rw [UiNode.walk_children, UiNode.children, UiNode.children?, hchildren] at hm
    rcases List.mem_cons.mp hm with rfl | hm
    · exact hhere
    · obtain ⟨n, hn, hm⟩ := List.mem_flatMap.mp hm
      exact hmade n hn m hm

theorem built_reads {v : Value} (h : Built v) : ∃ n, Reads v n ∧ ∀ m ∈ n.walk, WellMade m := by
  induction h with
  | build htag _ hok ih =>
    obtain ⟨n, hread, -, -, -, hmade⟩ := build_reads htag ih hok
    exact ⟨n, hread, hmade⟩

/-- A node that a factory of the catalogue builds over nodes so built reads back as itself: its tag, the
given props and exactly the carried nodes, and every node of the tree is well made. -/
theorem built_reads_back {tag : String} {args : List Value} {v : Value} (htag : tag ∈ Component.tags)
    (hcarried : ∀ c ∈ carried args, Built c) (hok : build tag args = .ok v) :
    ∃ n, UiNode.ofValue v = .ok (some n) ∧ n.toValue = v ∧ n.tag = tag ∧
      n.props = givenProps (first args) ∧ List.Forall₂ Reads (carried args) n.children ∧
      ∀ m ∈ n.walk, WellMade m := by
  obtain ⟨n, ⟨hof, hto⟩, hrest⟩ := build_reads htag (fun c hc => built_reads (hcarried c hc)) hok
  exact ⟨n, hof, hto, hrest⟩

/-- A panel over one text, the text given alone. -/
theorem built_panel :
    let text := node "text" [("value", .string "hi")] []
    let args : List Value := [.map [("title", .string "Greeting")], text]
    let panel := node "panel" [("title", .string "Greeting")] [text]
    "panel" ∈ Component.tags ∧ (∀ c ∈ carried args, Built c) ∧ build "panel" args = .ok panel ∧
      ∃ n, UiNode.ofValue panel = .ok (some n) ∧ n.toValue = panel ∧ n.tag = "panel" ∧
        n.props = givenProps (first args) ∧ List.Forall₂ Reads (carried args) n.children ∧
        ∀ m ∈ n.walk, WellMade m := by
  intro text args panel
  have hpanel : "panel" ∈ Component.tags := by decide
  have htext : Built text := by
    have hnone : ∀ c ∈ carried [.string "hi"], Built c := fun c hc => absurd hc List.not_mem_nil
    exact .build (by decide : "text" ∈ Component.tags) hnone rfl
  have hcarried : ∀ c ∈ carried args, Built c := by
    intro c hc
    rw [List.mem_singleton.mp hc]
    exact htext
  have hok : build "panel" args = .ok panel := rfl
  exact ⟨hpanel, hcarried, hok, built_reads_back hpanel hcarried hok⟩

end Factory

end ScriptHost
