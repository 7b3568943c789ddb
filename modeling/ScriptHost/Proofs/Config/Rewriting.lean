import ScriptHost.Proofs.Config.Reading

/-!
# Documents with one configuration

What is read from a document is decided by what the nodes at the place of each setting say, in their order.  So
nothing that is unknown plays a part, and a node may be moved past nodes at other places.
-/

set_option autoImplicit false

namespace ScriptHost

namespace Config

def Unknown (sec : String) (n : Kdl.Node) : Prop := ∀ s, ¬ Gives s (sec, n)

/-- Changes to the nodes of one section: an unknown node, a property, an argument after the first one and
anything below a node may be added, and a node may be moved past nodes with other names. -/
inductive Within (sec : String) : List Kdl.Node → List Kdl.Node → Prop
  | unknown (left right : List Kdl.Node) {n : Kdl.Node} (hn : Unknown sec n) :
      Within sec (left ++ right) (left ++ n :: right)
  | property (left right : List Kdl.Node) (name : String) (before after : List Kdl.Entry)
      (children : Option (List Kdl.Node)) {e : Kdl.Entry} (he : e.name ≠ none) :
      Within sec (left ++ .mk name (before ++ after) children :: right)
        (left ++ .mk name (before ++ e :: after) children :: right)
  | argument (left right : List Kdl.Node) (name : String) (before after : List Kdl.Entry)
      (children : Option (List Kdl.Node)) (e : Kdl.Entry) (hfirst : ∃ x ∈ before, x.name = none) :
      Within sec (left ++ .mk name (before ++ after) children :: right)
        (left ++ .mk name (before ++ e :: after) children :: right)
  | below (left right : List Kdl.Node) (name : String) (entries : List Kdl.Entry)
      (children children' : Option (List Kdl.Node)) :
      Within sec (left ++ .mk name entries children :: right) (left ++ .mk name entries children' :: right)
  | moved (left past right : List Kdl.Node) {n : Kdl.Node} (hpast : ∀ m ∈ past, m.name ≠ n.name) :
      Within sec (left ++ n :: (past ++ right)) (left ++ past ++ n :: right)

/-- Changes that may be made to a document and taken back: those within a section, the entries of a section
itself, a section in which every node is unknown, and a node that is moved to a later section of the same name
past nodes at other places. -/
inductive Rewritten : Kdl.Document → Kdl.Document → Prop
  | refl (doc : Kdl.Document) : Rewritten doc doc
  | symm {doc other : Kdl.Document} (h : Rewritten doc other) : Rewritten other doc
  | trans {doc middle other : Kdl.Document} (h : Rewritten doc middle) (h' : Rewritten middle other) :
      Rewritten doc other
  | unknown (before after : Kdl.Document) {sec : Kdl.Node}
      (hsec : ∀ n ∈ sec.children?.getD [], Unknown sec.name n) :
      Rewritten (before ++ after) (before ++ sec :: after)
  | entries (before after : Kdl.Document) (name : String) (entries entries' : List Kdl.Entry)
      (children : Option (List Kdl.Node)) :
      Rewritten (before ++ .mk name entries children :: after) (before ++ .mk name entries' children :: after)
  | within (before after : Kdl.Document) (name : String) (entries : List Kdl.Entry)
      {nodes nodes' : List Kdl.Node} (h : Within name nodes nodes') :
      Rewritten (before ++ .mk name entries (some nodes) :: after)
        (before ++ .mk name entries (some nodes') :: after)
  | moved (before past after : Kdl.Document) (name : String) (entries entries' : List Kdl.Entry)
      (left right left' right' : List Kdl.Node) {n : Kdl.Node} (hright : ∀ m ∈ right, m.name ≠ n.name)
      (hpast : ∀ sec ∈ past, sec.name = name → ∀ m ∈ sec.children?.getD [], m.name ≠ n.name)
      (hleft : ∀ m ∈ left', m.name ≠ n.name) :
      Rewritten
        (before ++ .mk name entries (some (left ++ n :: right)) ::
          (past ++ .mk name entries' (some (left' ++ right')) :: after))
        (before ++ .mk name entries (some (left ++ right)) ::
          (past ++ .mk name entries' (some (left' ++ n :: right')) :: after))

def values (s : Setting) (nodes : List (String × Kdl.Node)) : List (Option s.Value) :=
  (given s nodes).map s.valueIn?

def Alike (xs ys : List (String × Kdl.Node)) : Prop := ∀ s, values s xs = values s ys

@[simp] theorem values_append (s : Setting) (xs ys : List (String × Kdl.Node)) :
    values s (xs ++ ys) = values s xs ++ values s ys := by
  rw [values, given_append, List.map_append, values, values]

theorem said_values (s : Setting) (nodes : List (String × Kdl.Node)) :
    said s nodes = (values s nodes).getLast?.join := by
  rw [said, values, List.getLast?_map]
  cases (given s nodes).getLast? <;> rfl

theorem sound_iff (nodes : List (String × Kdl.Node)) :
    (∀ x ∈ nodes, ¬ Faulty x) ↔ ∀ s, none ∉ values s nodes := by
  constructor
  · intro h s hmem
    obtain ⟨n, hn, hnone⟩ := List.mem_map.mp hmem
    obtain ⟨x, hx, rfl⟩ := List.mem_map.mp hn
    obtain ⟨hx, hs⟩ := List.mem_filter.mp hx
    exact h x hx ⟨s, by simpa using hs, hnone⟩
  · rintro h x hx ⟨s, hs, hnone⟩
    refine h s (List.mem_map.mpr ⟨x.2, List.mem_map.mpr ⟨x, ?_, rfl⟩, hnone⟩)
    exact List.mem_filter.mpr ⟨hx, by simpa using hs⟩

theorem ok_sound {doc : Kdl.Document} {c : Config} (h : ofDocument doc = .ok c) :
    ∀ x ∈ inner doc, ¬ Faulty x := by
  rcases sound_or_first (inner doc) with hall | ⟨before, x, after, hsplit, hbefore, s, hs, hnone⟩
  · exact hall
  · rw [(ofDocument_error_iff doc _).mpr ⟨before, x, after, s, hsplit, hbefore, hs, hnone, rfl⟩] at h
    cases h

theorem alike_ok {doc other : Kdl.Document} (h : Alike (inner doc) (inner other)) {c : Config}
    (hc : ofDocument doc = .ok c) : ofDocument other = .ok c := by
  have hsound := ok_sound hc
  have hother : ∀ x ∈ inner other, ¬ Faulty x := by
    rw [sound_iff] at hsound ⊢
    exact fun s => h s ▸ hsound s
  obtain ⟨d, hd, hget⟩ := ofDocument_said hsound
  obtain ⟨d', hd', hget'⟩ := ofDocument_said hother
  obtain rfl : d = c := Except.ok.inj (hd.symm.trans hc)
  have hsame : d' = d := ext_get fun s => by rw [hget, hget', said_values, said_values, h s]
  rw [hd', hsame]

theorem alike_append {xs xs' ys ys' : List (String × Kdl.Node)} (hxs : Alike xs xs') (hys : Alike ys ys') :
    Alike (xs ++ ys) (xs' ++ ys') := fun s => by simp [hxs s, hys s]

theorem alike_refl (xs : List (String × Kdl.Node)) : Alike xs xs := fun _ => rfl

theorem alike_unknown {xs : List (String × Kdl.Node)} (h : ∀ x ∈ xs, ∀ s, ¬ Gives s x) : Alike [] xs := by
  intro s
  rw [values, values, given_none fun x hx => h x hx s]
  rfl

theorem alike_moved {x : String × Kdl.Node} {past : List (String × Kdl.Node)}
    (h : ∀ y ∈ past, ¬ (y.1 = x.1 ∧ y.2.name = x.2.name)) : Alike (x :: past) (past ++ [x]) := by
  intro s
  rw [← List.singleton_append, values_append, values_append]
  by_cases hx : Gives s x
  · have hpast : given s past = [] := by
      refine given_none fun y hy hs => h y hy ?_
      exact Prod.mk.inj (hs.symm.trans hx)
    rw [values, values, hpast]
    simp
  · rw [values, given_other hx]
    simp

/-- Of a node only the name and the first argument count. -/
theorem alike_node (sec : String) {n m : Kdl.Node} (hname : n.name = m.name)
    (hargument : n.argument? = m.argument?) : Alike [(sec, n)] [(sec, m)] := by
  intro s
  have hvalue : s.valueIn? n = s.valueIn? m := by rw [Setting.valueIn?, Setting.valueIn?, hargument]
  have hgives : Gives s (sec, n) ↔ Gives s (sec, m) := by rw [Gives, Gives, hname]
  by_cases hs : Gives s (sec, n)
  · rw [values, values, given_self hs, given_self (hgives.mp hs)]
    simp [hvalue]
  · rw [values, values, given_other hs, given_other (mt hgives.mpr hs)]

theorem argument_property (name : String) (before after : List Kdl.Entry)
    (children children' : Option (List Kdl.Node)) {e : Kdl.Entry} (he : e.name ≠ none) :
    (Kdl.Node.mk name (before ++ e :: after) children').argument? =
      (Kdl.Node.mk name (before ++ after) children).argument? := by
  simp [Kdl.Node.argument?, Kdl.Node.entries, List.find?_append, he]

theorem argument_further (name : String) (before after : List Kdl.Entry)
    (children : Option (List Kdl.Node)) (e : Kdl.Entry) (hfirst : ∃ x ∈ before, x.name = none) :
    (Kdl.Node.mk name (before ++ e :: after) children).argument? =
      (Kdl.Node.mk name (before ++ after) children).argument? := by
  have hfound : (before.find? (·.name.isNone)).isSome = true := by
    rw [List.find?_isSome]
    obtain ⟨x, hx, hnone⟩ := hfirst
    exact ⟨x, hx, by simp [hnone]⟩
  obtain ⟨x, hx⟩ := Option.isSome_iff_exists.mp hfound
  simp [Kdl.Node.argument?, Kdl.Node.entries, List.find?_append, hx]

def under (sec : String) (nodes : List Kdl.Node) : List (String × Kdl.Node) := nodes.map fun n => (sec, n)

@[simp] theorem under_append (sec : String) (xs ys : List Kdl.Node) :
    under sec (xs ++ ys) = under sec xs ++ under sec ys := List.map_append

@[simp] theorem under_cons (sec : String) (n : Kdl.Node) (nodes : List Kdl.Node) :
    under sec (n :: nodes) = [(sec, n)] ++ under sec nodes := rfl

theorem within_alike {sec : String} {nodes nodes' : List Kdl.Node} (h : Within sec nodes nodes') :
    Alike (under sec nodes) (under sec nodes') := by
  have hone : ∀ (left right : List Kdl.Node) {n m : Kdl.Node}, n.name = m.name →
      n.argument? = m.argument? → Alike (under sec (left ++ n :: right)) (under sec (left ++ m :: right)) := by
    intro left right n m hname hargument
    rw [under_append, under_append, under_cons, under_cons]
    exact alike_append (alike_refl _) (alike_append (alike_node sec hname hargument) (alike_refl _))
  cases h with
  | @unknown left right n hn =>
    have hnew : Alike [] [(sec, n)] := alike_unknown fun x hx => List.mem_singleton.mp hx ▸ hn
    rw [under_append, under_append, under_cons]
    exact alike_append (alike_refl _) (alike_append hnew (alike_refl (under sec right)))
  | property left right name before after children he =>
    exact hone left right rfl (argument_property name before after children children he).symm
  | argument left right name before after children e hfirst =>
    exact hone left right rfl (argument_further name before after children e hfirst).symm
  | below left right name entries children children' => exact hone left right rfl rfl
  | @moved left past right n hpast =>
    have hmoved : Alike ((sec, n) :: under sec past) (under sec past ++ [(sec, n)]) := by
      refine alike_moved fun y hy hsame => ?_
      obtain ⟨m, hm, rfl⟩ := List.mem_map.mp hy
      exact hpast m hm hsame.2
    have hall := alike_append (alike_refl (under sec left)) (alike_append hmoved (alike_refl (under sec right)))
    simpa [under] using hall

@[simp] theorem inner_append (doc other : Kdl.Document) : inner (doc ++ other) = inner doc ++ inner other :=
  List.flatMap_append

@[simp] theorem inner_cons (sec : Kdl.Node) (doc : Kdl.Document) :
    inner (sec :: doc) = under sec.name (sec.children?.getD []) ++ inner doc := rfl

theorem rewritten_alike {doc other : Kdl.Document} (h : Rewritten doc other) :
    Alike (inner doc) (inner other) := by
  induction h with
  | refl doc => exact alike_refl _
  | symm h ih => exact fun s => (ih s).symm
  | trans h h' ih ih' => exact fun s => (ih s).trans (ih' s)
  | @unknown before after sec hsec =>
    have hnew : Alike [] (under sec.name (sec.children?.getD [])) := by
      refine alike_unknown fun x hx => ?_
      obtain ⟨n, hn, rfl⟩ := List.mem_map.mp hx
      exact hsec n hn
    rw [inner_append, inner_append, inner_cons]
    exact alike_append (alike_refl _) (alike_append hnew (alike_refl (inner after)))
  | entries before after name entries entries' children =>
    rw [inner_append, inner_append, inner_cons, inner_cons]
    exact alike_refl _
  | within before after name entries h =>
    rw [inner_append, inner_append, inner_cons, inner_cons]
    exact alike_append (alike_refl _) (alike_append (within_alike h) (alike_refl _))
  | @moved before past after name entries entries' left right left' right' n hright hpast hleft =>
    -- the node passes the rest of its section, the sections between and the first nodes of the later one
    have hmoved : Alike ((name, n) :: (under name right ++ (inner past ++ under name left')))
        ((under name right ++ (inner past ++ under name left')) ++ [(name, n)]) := by
      refine alike_moved fun y hy hsame => ?_
      rcases List.mem_append.mp hy with hy | hy
      · obtain ⟨m, hm, rfl⟩ := List.mem_map.mp hy
        exact hright m hm hsame.2
      · rcases List.mem_append.mp hy with hy | hy
        · obtain ⟨sec, hsec, hy⟩ := List.mem_flatMap.mp hy
          obtain ⟨m, hm, rfl⟩ := List.mem_map.mp hy
          exact hpast sec hsec hsame.1 m hm hsame.2
        · obtain ⟨m, hm, rfl⟩ := List.mem_map.mp hy
          exact hleft m hm hsame.2
    have hall := alike_append (alike_refl (inner before ++ under name left))
      (alike_append hmoved (alike_refl (under name right' ++ inner after)))
    simpa [Kdl.Node.name, Kdl.Node.children?] using hall

/-- Reading a document fails exactly when some node directly inside a section is at the place of a setting and
its first argument says no value for it, and the refusal is for the first such node.  Otherwise each setting is
what the last node at its place says, or the standard one when there is none.  No rewriting changes what was
read. -/
theorem last_said_wins (doc : Kdl.Document) :
    ((∃ e, ofDocument doc = .error e) ↔
      ∃ sec ∈ doc, ∃ n ∈ sec.children?.getD [], ∃ s : Setting, s.place = (sec.name, n.name) ∧
        s.valueIn? n = none) ∧
    (∀ e, ofDocument doc = .error e ↔ ∃ before x after s, inner doc = before ++ x :: after ∧
      (∀ y ∈ before, ¬ Faulty y) ∧ Gives s x ∧ s.valueIn? x.2 = none ∧ e = s.refusal x.2) ∧
    ((∀ x ∈ inner doc, ¬ Faulty x) →
      ∃ c, ofDocument doc = .ok c ∧ ∀ s, c.get s = (said s (inner doc)).getD (standard.get s)) ∧
    (∀ other c, Rewritten doc other → ofDocument doc = .ok c → ofDocument other = .ok c) ∧
    ∀ text, Kdl.Document.ofText? text = some doc → ofText text = ofDocument doc := by
  refine ⟨?_, ofDocument_error_iff doc, ofDocument_said, ?_, fun text htext => by rw [ofText, htext]⟩
  · constructor
    · rintro ⟨e, he⟩
      obtain ⟨before, x, after, s, hsplit, -, hs, hnone, -⟩ := (ofDocument_error_iff doc e).mp he
      have hx : x ∈ inner doc := by simp [hsplit]
      obtain ⟨sec, hsec, hx⟩ := List.mem_flatMap.mp hx
      obtain ⟨n, hn, rfl⟩ := List.mem_map.mp hx
      exact ⟨sec, hsec, n, hn, s, hs, hnone⟩
    · rintro ⟨sec, hsec, n, hn, s, hs, hnone⟩
      have hx : (sec.name, n) ∈ inner doc :=
        List.mem_flatMap.mpr ⟨sec, hsec, List.mem_map.mpr ⟨n, hn, rfl⟩⟩
      cases hread : ofDocument doc with
      | error e => exact ⟨e, rfl⟩
      | ok c => exact absurd ⟨s, hs, hnone⟩ (ok_sound hread _ hx)
  · exact fun other c h => alike_ok (rewritten_alike h)

def scattered : Kdl.Document := [
  -- a setting that is given twice and in two sections, between nodes that are unknown
  .mk "scripting" [] (some [
    .mk "sandbox" [⟨none, .bool false⟩] none,
    .mk "memory-limit" [⟨some "unit", .string "b"⟩, ⟨none, .integer 64⟩, ⟨none, .null⟩] none]),
  .mk "renderer" [] (some [.mk "sandbox" [] none]),
  .mk "scripting" [] (some [
    .mk "memory-limit" [⟨none, .integer 0⟩] none])]

theorem scattered_read :
    let other : Kdl.Document := [
      .mk "scripting" [] (some [
        .mk "memory-limit" [⟨some "unit", .string "b"⟩, ⟨none, .integer 64⟩, ⟨none, .null⟩] none]),
      .mk "renderer" [] (some [.mk "sandbox" [] none]),
      .mk "scripting" [] (some [
        .mk "sandbox" [⟨none, .bool false⟩] none,
        .mk "memory-limit" [⟨none, .integer 0⟩] none])]
    let c : Config := { standard with sandbox := false }
    (∀ x ∈ inner scattered, ¬ Faulty x) ∧ Rewritten scattered other ∧
      ofDocument scattered = .ok c ∧ ofDocument other = .ok c := by
  intro other c
  obtain ⟨-, -, hread, hrewritten, -⟩ := last_said_wins scattered
  have hsound : ∀ x ∈ inner scattered, ¬ Faulty x := by
    rw [sound_iff]
    intro s
    cases s <;> decide
  have hother : Rewritten scattered other :=
    .moved [] [.mk "renderer" [] (some [.mk "sandbox" [] none])] [] "scripting" [] [] []
      [.mk "memory-limit" [⟨some "unit", .string "b"⟩, ⟨none, .integer 64⟩, ⟨none, .null⟩] none] []
      [.mk "memory-limit" [⟨none, .integer 0⟩] none] (n := .mk "sandbox" [⟨none, .bool false⟩] none)
      (by decide) (by decide) (by decide)
  obtain ⟨d, hd, hget⟩ := hread hsound
  have hc : d = c := ext_get fun s => by
    rw [hget]
    cases s <;> decide
  subst hc
  exact ⟨hsound, hother, hd, hrewritten other _ hother hd⟩

end Config

end ScriptHost
