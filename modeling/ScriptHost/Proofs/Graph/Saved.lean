import ScriptHost.Graph.Basic
import ScriptHost.Proofs.Binary
import ScriptHost.Proofs.Json.Codecs

/-!
# Saved graphs

A graph is read from a JSON value, written and read again.  Positions are held in single precision, where
a number that is too large becomes an infinity, and an infinity is written as null, which is no number:
the second reading gives the graph of the first one exactly when all its positions are finite.
-/

set_option autoImplicit false

namespace ScriptHost
open Fields

def noNumber : DecodeError := .wrongKind .null "f32"

theorem Json.single_ofSingle (x : Binary32) :
    Decoder.single (Json.ofSingle x).sorted = if x.isFinite then .ok x else .error noNumber := by
  rw [ofSingle, ofBinary, x.toBinary64_isFinite]
  by_cases h : x.isFinite
  · rw [if_pos h, if_pos h]
    exact congrArg Except.ok (Binary32.ofBinary64_toBinary64 h)
  · rw [if_neg h, if_neg h]
    rfl

namespace Position

def isFinite (p : Position) : Bool := p.x.isFinite && p.y.isFinite

theorem decode_write (p : Position) :
    Position.decode (p.write .tree).sorted = if p.isFinite then .ok p else .error noNumber := by
  have hnames : ["x", "y"].Nodup := by decide
  obtain ⟨members, hsorted, hm⟩ := record_written [("x", some (Json.ofSingle p.x)),
    ("y", some (Json.ofSingle p.y))] hnames
  have hx := required_ends hm "x" .single (j := Json.ofSingle p.x) (by simp) (Json.single_ofSingle p.x)
  have hy := required_ends hm "y" .single (j := Json.ofSingle p.y) (by simp) (Json.single_ofSingle p.y)
  rw [show (p.write .tree).sorted = .obj members from hsorted]
  exact decode_ends (seq_ends (map_ends Position.mk hx) hy) _

end Position

namespace Node

theorem decode_write {n : Node} (hdata : n.data.sorted = n.data) :
    Node.decode (n.write .tree).sorted = if n.position.isFinite then .ok n else .error noNumber := by
  have hnames : ["id", "typeId", "position", "data"].Nodup := by decide
  obtain ⟨members, hsorted, hm⟩ := record_written [("id", some (.str n.id)), ("typeId", some (.str n.typeId)),
    ("position", some (n.position.write .tree)), ("data", some n.data)] hnames
  have hid := text_reads hm "id" (s := n.id) (by simp)
  have htype := text_reads hm "typeId" (s := n.typeId) (by simp)
  have hposition := optional_ends hm "position" _ (j := n.position.write .tree) (by simp)
    n.position.decode_write .origin
  have hread : Decoder.json n.data.sorted = .ok n.data := congrArg Except.ok hdata
  have hkept := optional_reads hm "data" .json (j := n.data) (by simp) hread .null
  have hhead : Ends _ members _ noNumber true := seq_reads (map_reads Node.mk hid) htype
  have htail : Ends _ members _ noNumber true := hkept
  rw [show (n.write .tree).sorted = .obj members from hsorted]
  have hends := decode_ends (seq_ends (seq_ends hhead hposition) htail) "NodeInstance"
  rw [Bool.true_and, Bool.and_true] at hends
  exact hends

theorem decode_data {j : Json} {n : Node} (h : Node.decode j = .ok n) (hj : j.sorted = j) :
    n.data.sorted = n.data := by
  obtain ⟨members, hread, hmembers⟩ := reads_of_decode h hj
  obtain ⟨_, data, hthree, hdata, rfl⟩ := seq_reads_iff.mp hread
  obtain ⟨_, position, htwo, -, rfl⟩ := seq_reads_iff.mp hthree
  obtain ⟨_, typeId, hone, -, rfl⟩ := seq_reads_iff.mp htwo
  obtain ⟨id, -, rfl⟩ := map_reads_iff.mp hone
  rcases optional_read hdata with rfl | ⟨i, hi, hdecode⟩
  · rfl
  · obtain rfl := Except.ok.inj hdecode
    exact hmembers _ hi

end Node

namespace Graph

structure Tidy (g : Graph) : Prop where
  data : ∀ n ∈ g.nodes, n.data.sorted = n.data
  metadata : ∀ m, g.metadata = some m → m.sorted = m ∧ m ≠ .null

theorem decode_tidy {j : Json} {g : Graph} (h : Graph.decode j = .ok g) (hj : j.sorted = j) : g.Tidy := by
  obtain ⟨members, hread, hmembers⟩ := reads_of_decode h hj
  obtain ⟨_, metadata, hfour, hmetadata, rfl⟩ := seq_reads_iff.mp hread
  obtain ⟨_, edges, hthree, -, rfl⟩ := seq_reads_iff.mp hfour
  obtain ⟨_, nodes, htwo, hnodes, rfl⟩ := seq_reads_iff.mp hthree
  obtain ⟨_, name, hone, -, rfl⟩ := seq_reads_iff.mp htwo
  obtain ⟨id, -, rfl⟩ := map_reads_iff.mp hone
  constructor
  · rcases optional_read hnodes with rfl | ⟨i, hi, hdecode⟩
    · simp
    · intro n hn
      obtain ⟨item, hitem, hnode⟩ := Decoder.list_read hdecode (hmembers _ hi) n hn
      exact Node.decode_data hnode hitem
  · rintro m rfl
    rcases optional_read hmetadata with hnone | ⟨i, hi, hdecode⟩
    · cases hnone
    · cases i with
      | null => cases hdecode
      | _ =>
        obtain rfl := Option.some.inj (Except.ok.inj hdecode)
        exact ⟨hmembers _ hi, nofun⟩

theorem decode_write {g : Graph} (h : g.Tidy) :
    Graph.decode (g.write .tree).sorted
      = if g.nodes.all (·.position.isFinite) then .ok g else .error noNumber := by
  have hnames : ["id", "name", "nodes", "edges", "metadata"].Nodup := by decide
  obtain ⟨members, hsorted, hm⟩ := record_written [("id", some (.str g.id)), ("name", some (.str g.name)),
    ("nodes", some (.arr (g.nodes.map (·.write .tree)))), ("edges", some (.arr (g.edges.map (·.toJson)))),
    ("metadata", g.metadata)] hnames
  have hrecord : (g.write .tree).sorted = .obj members := by
    rw [← hsorted, write]
    cases g.metadata <;> rfl
  have hid := text_reads hm "id" (s := g.id) (by simp)
  have hname := text_reads hm "name" (s := g.name) (by simp)
  have hnodes := optional_ends hm "nodes" _ (j := .arr (g.nodes.map (·.write .tree))) (by simp)
    (Decoder.list_written_if (·.position.isFinite) noNumber fun n hn => Node.decode_write (h.data n hn)) []
  have hedges := optional_reads hm "edges" _ (j := .arr (g.edges.map (·.toJson))) (by simp)
    (Decoder.list_written fun e _ => e.decode_toJson) []
  have hmetadata := skipped_reads hm "metadata" .json (fun m => m) (o := g.metadata) (by simp)
    (fun m hmeta => congrArg Except.ok (h.metadata m hmeta).1) fun m hmeta hnull =>
      (h.metadata m hmeta).2 ((h.metadata m hmeta).1.symm.trans hnull)
  have hhead : Ends _ members _ noNumber true := seq_reads (map_reads Graph.mk hid) hname
  have htail : Ends _ members _ noNumber true := hedges
  have hlast : Ends _ members _ noNumber true := hmetadata
  rw [hrecord]
  have hends := decode_ends (seq_ends (seq_ends (seq_ends hhead hnodes) htail) hlast) "NodeGraph"
  rw [Bool.true_and, Bool.and_true, Bool.and_true] at hends
  exact hends

/-- A graph that was read from a JSON value is read again from what is written of it, unless a position is
infinite in single precision: then what is written cannot be read. -/
theorem saved_loads {j : Json} {g : Graph} (h : Graph.decode j.sorted = .ok g) :
    Graph.decode (g.write .tree).sorted
      = if g.nodes.all (·.position.isFinite) then .ok g else .error noNumber :=
  decode_write (decode_tidy h j.sorted_sorted)

def oneNode (x y : Json) : Json :=
  .obj [("name", .str "n"), ("nodes", .arr [.obj [("typeId", .str "t"),
    ("position", .obj [("y", y), ("x", x)]), ("id", .str "a")]]), ("id", .str "g")]

theorem read_if {j : Json} {fine : Bool}
    (h : ((Graph.decode j).toOption.map fun g => g.nodes.all (·.position.isFinite)) = some fine) :
    ∃ g, Graph.decode j = .ok g ∧ g.nodes.all (·.position.isFinite) = fine := by
  cases hread : Graph.decode j with
  | error e => simp [hread, Except.toOption] at h
  | ok g => exact ⟨g, rfl, by simpa [hread, Except.toOption] using h⟩

theorem saved_loads_placed :
    ∃ g, Graph.decode (oneNode (.int 3) (.float ⟨0x3fe0000000000000⟩)).sorted = .ok g ∧
      Graph.decode (g.write .tree).sorted = .ok g := by
  obtain ⟨g, hread, hfine⟩ := read_if (j := (oneNode (.int 3) (.float ⟨0x3fe0000000000000⟩)).sorted)
    (show _ = some true by decide +kernel)
  have hloads := saved_loads hread
  rw [if_pos hfine] at hloads
  exact ⟨g, hread, hloads⟩

/-- A node at 1e300 is read, but not from what is written of it. -/
theorem written_unreadable :
    ∃ g, Graph.decode (oneNode (.float ⟨0x7e37e43c8800759c⟩) (.int 0)).sorted = .ok g ∧
      Graph.decode (g.write .tree).sorted = .error noNumber := by
  obtain ⟨g, hread, hfine⟩ := read_if (j := (oneNode (.float ⟨0x7e37e43c8800759c⟩) (.int 0)).sorted)
    (show _ = some false by decide +kernel)
  refine ⟨g, hread, ?_⟩
  rw [decode_write (decode_tidy hread (Json.sorted_sorted _)), hfine]
  rfl

end Graph

end ScriptHost
