import ScriptHost.Proofs.Graph.Edits
import ScriptHost.Proofs.Registry.Ports

/-!
# Graphs without faults

`Graph.validate` goes through the edges in their order, compares each with those before it, and asks for
the port at its end twice: once for the first port of that id, once for any that carries data.
`WellFormed` says what a graph without faults is like in no order at all, in terms of the ports that the
nodes have.  The two agree for every registry that was opened and then changed, because no node has two
ports of one id there.
-/

set_option autoImplicit false

namespace ScriptHost

def PortType.Compatible (s t : PortType) : Prop :=
  -- flow goes with flow and data with data, of one type or with `any` on either side
  s.isFlow = t.isFlow ∧ (s = t ∨ s = .any ∨ t = .any)

theorem PortType.feeds_iff (s t : PortType) : s.feeds t = true ↔ s.Compatible t := by
  unfold Compatible
  cases s <;> cases t <;> decide

namespace Graph

def HasPort (r : Registry) (n : Node) (dir : Direction) (p : Port) : Prop :=
  ∃ ports, r.portsOf n dir = .ok ports ∧ p ∈ ports

def StartsAt (g : Graph) (r : Registry) (e : Edge) (p : Port) : Prop :=
  -- the output port that an edge leaves from, on the first node that has the id of its source
  ∃ n, g.node? e.source = some n ∧ HasPort r n .output p ∧ p.id = e.sourceHandle

def EndsAt (g : Graph) (r : Registry) (e : Edge) (p : Port) : Prop :=
  -- the input port that an edge leads to, on the first node that has the id of its target
  ∃ n, g.node? e.target = some n ∧ HasPort r n .input p ∧ p.id = e.targetHandle

def Apart (g : Graph) (r : Registry) (x e : Edge) : Prop :=
  Meet x e → ∀ p, EndsAt g r x p → p.type.isFlow = true

structure WellFormed (g : Graph) (r : Registry) : Prop where
  types : ∀ n ∈ g.nodes, ∃ t, r.find? n.typeId = some t
  joined : ∀ e ∈ g.edges, ∃ output input, StartsAt g r e output ∧ EndsAt g r e input ∧
    output.type.Compatible input.type
  apart : ∀ i j (hi : i < g.edges.length) (hj : j < g.edges.length), i ≠ j →
    Apart g r g.edges[i] g.edges[j]

theorem hasPort_find {r : Registry} (h : r.Kept) (n : Node) (dir : Direction) (id : String) (p : Port) :
    (∃ ports, r.portsOf n dir = .ok ports ∧ Port.find? ports id = some p) ↔
      HasPort r n dir p ∧ p.id = id := by
  constructor
  · rintro ⟨ports, hports, hfind⟩
    exact ⟨⟨ports, hports, List.mem_of_find?_eq_some hfind⟩, by simpa using List.find?_some hfind⟩
  · rintro ⟨⟨ports, hports, hp⟩, rfl⟩
    exact ⟨ports, hports, find_of_distinct Port.id (Registry.portsOf_distinct h hports).1 hp⟩

theorem attached_iff {r : Registry} (h : r.Kept) (g : Graph) (e : Edge) :
    Attached g r e ↔ ∃ output input, StartsAt g r e output ∧ EndsAt g r e input ∧
      output.type.Compatible input.type := by
  constructor
  · rintro ⟨source, target, outs, ins, output, input, hs, ht, houts, hout, hins, hin, hfeeds⟩
    have hstart := (hasPort_find h source .output _ output).mp ⟨outs, houts, hout⟩
    have hend := (hasPort_find h target .input _ input).mp ⟨ins, hins, hin⟩
    exact ⟨output, input, ⟨source, hs, hstart⟩, ⟨target, ht, hend⟩, (PortType.feeds_iff _ _).mp hfeeds⟩
  · rintro ⟨output, input, ⟨source, hs, hstart⟩, ⟨target, ht, hend⟩, hcompatible⟩
    obtain ⟨outs, houts, hout⟩ := (hasPort_find h source .output _ output).mpr hstart
    obtain ⟨ins, hins, hin⟩ := (hasPort_find h target .input _ input).mpr hend
    exact ⟨source, target, outs, ins, output, input, hs, ht, houts, hout, hins, hin,
      (PortType.feeds_iff _ _).mpr hcompatible⟩

theorem meet_symm {x e : Edge} (h : Meet x e) : Meet e x := ⟨h.1.symm, h.2.symm⟩

theorem endsAt_meet {g : Graph} {r : Registry} {x e : Edge} (h : Meet x e) {p : Port}
    (hx : EndsAt g r x p) : EndsAt g r e p := by
  obtain ⟨n, hn, hport, hid⟩ := hx
  exact ⟨n, h.1 ▸ hn, hport, hid.trans h.2⟩

theorem apart_symm {g : Graph} {r : Registry} {x e : Edge} (h : Apart g r x e) : Apart g r e x :=
  fun hmeet p he => h (meet_symm hmeet) p (endsAt_meet hmeet he)

theorem enters_iff (g : Graph) (r : Registry) (e : Edge) :
    Enters g r e ↔ ∃ p, EndsAt g r e p ∧ p.type.isFlow = false := by
  constructor
  · rintro ⟨n, ports, hn, hports, p, hp, hid, hdata⟩
    exact ⟨p, ⟨n, hn, ⟨ports, hports, hp⟩, hid⟩, by simpa [PortType.isData] using hdata⟩
  · rintro ⟨p, ⟨n, hn, ⟨ports, hports, hp⟩, hid⟩, hflow⟩
    exact ⟨n, ports, hn, hports, p, hp, hid, by simp [PortType.isData, hflow]⟩

theorem apart_iff (g : Graph) (r : Registry) (x e : Edge) :
    Apart g r x e ↔ (Enters g r e → ¬ Meet x e) := by
  rw [enters_iff]
  constructor
  · rintro h ⟨p, hp, hdata⟩ hmeet
    have hflow := h hmeet p (endsAt_meet (meet_symm hmeet) hp)
    rw [hdata] at hflow
    exact Bool.false_ne_true hflow
  · intro h hmeet p hp
    by_contra hdata
    exact h ⟨p, endsAt_meet hmeet hp, Bool.eq_false_iff.mpr hdata⟩ hmeet

/-- A relation that goes both ways holds of each two places when it holds of each place and a later
one. -/
theorem pairwise_places {α : Type} {R : α → α → Prop} (hsymm : ∀ x y, R x y → R y x) (l : List α) :
    l.Pairwise R ↔ ∀ i j (hi : i < l.length) (hj : j < l.length), i ≠ j → R l[i] l[j] := by
  rw [List.pairwise_iff_getElem]
  constructor
  · intro h i j hi hj hne
    rcases Nat.lt_or_gt_of_ne hne with hlt | hgt
    · exact h i j hi hj hlt
    · exact hsymm _ _ (h j i hj hi hgt)
  · intro h i j hi hj hlt
    exact h i j hi hj (Nat.ne_of_lt hlt)

theorem apart_pairwise (g : Graph) (r : Registry) (edges : List Edge) :
    edges.Pairwise (Apart g r) ↔ ∀ i j (hi : i < edges.length) (hj : j < edges.length), i ≠ j →
      Apart g r edges[i] edges[j] := pairwise_places (fun _ _ => apart_symm) edges

theorem typeFaults_nil (g : Graph) (r : Registry) :
    g.typeFaults r = [] ↔ ∀ n ∈ g.nodes, ∃ t, r.find? n.typeId = some t := by
  rw [typeFaults_eq, List.map_eq_nil_iff, List.filter_eq_nil_iff]
  simp only [Option.isNone_iff_eq_none, ← ne_eq, Option.ne_none_iff_exists']

theorem validate_nil {r : Registry} (h : r.Kept) (g : Graph) :
    g.validate r = [] ↔ WellFormed g r := by
  have hmeeting : (fun x e => Enters g r e → ¬ Meet x e) = Apart g r := by
    funext x e
    exact propext (apart_iff g r x e).symm
  rw [validate, List.append_eq_nil_iff, typeFaults_nil, edgeFaults_nil, hmeeting, apart_pairwise]
  simp only [attached_iff h]
  constructor
  · rintro ⟨htypes, hjoined, -, hapart⟩
    exact ⟨htypes, hjoined, hapart⟩
  · rintro ⟨htypes, hjoined, hapart⟩
    exact ⟨htypes, hjoined, fun _ _ _ x hx => absurd hx List.not_mem_nil, hapart⟩

theorem wellFormed_perm {g : Graph} {r : Registry} (h : WellFormed g r) {edges : List Edge}
    (hperm : edges.Perm g.edges) : WellFormed { g with edges := edges } r where
  types := h.types
  joined e he := h.joined e (hperm.mem_iff.mp he)
  apart := by
    have hpairs := (apart_pairwise g r g.edges).mpr h.apart
    exact (apart_pairwise g r edges).mp ((hperm.pairwise_iff apart_symm).mpr hpairs)

/-- With a registry that was opened with the built-in types or with none and then changed in any way, a
graph has no fault exactly when it is well formed.  So the order of its edges plays no part. -/
theorem validate_wellFormed (o : Registry.Opening) (changes : List Registry.Change) (g : Graph) :
    let r := Registry.changed (Registry.opened o) changes
    (g.validate r = [] ↔ WellFormed g r) ∧
      ∀ edges, edges.Perm g.edges → ({ g with edges := edges }.validate r = [] ↔ g.validate r = []) := by
  intro r
  have hkept : r.Kept := Registry.changed_kept (Registry.opened_kept o) changes
  refine ⟨validate_nil hkept g, fun edges hperm => ?_⟩
  rw [validate_nil hkept, validate_nil hkept]
  constructor
  · intro h
    exact wellFormed_perm h hperm.symm
  · intro h
    exact wellFormed_perm h hperm

def forked : Graph := { empty "g" "G" with
  -- two edges that meet at a flow input, and two that bring data to two inputs
  nodes := [.make "a" "on-start" .origin, .make "b" "on-start" .origin, .make "n" "number" .origin,
    .make "l" "log" .origin, .make "c" "compare" .origin]
  edges := [.between "a" "out" "l" "in", .between "n" "value" "l" "message",
    .between "b" "out" "l" "in", .between "n" "value" "c" "a"] }

theorem validate_wellFormed_reversed :
    let r := Registry.changed (Registry.opened .builtins) []
    forked.edges.reverse.Perm forked.edges ∧ WellFormed forked r ∧
      { forked with edges := forked.edges.reverse }.validate r = [] := by
  intro r
  obtain ⟨hclean, hperm⟩ := validate_wellFormed .builtins [] forked
  have hvalid : forked.validate r = [] := by decide +kernel
  exact ⟨List.reverse_perm _, hclean.mp hvalid, (hperm _ (List.reverse_perm _)).mpr hvalid⟩

end Graph

end ScriptHost
