import ScriptHost.Bridge.Run
import ScriptHost.Proofs.Crossing.NormalForm
import ScriptHost.Proofs.Lua.Start

/-!
# Global variables from the host

The host sets and reads global variables through the table of globals, metamethods included.  Where none
of them stands in the way, a value without functions that is set comes back as its normal form.
-/

set_option autoImplicit false

namespace ScriptHost
open Lua

namespace Session

def withHeap (s : Session) (h : Heap) : Session := { s with heap := h }

theorem start_unlimited (id : SessionId) {config : Config} (hlimit : config.memoryLimit = none) :
    (Session.start id config).heap.Unlimited := by
  rw [Session.start, Heap.Unlimited, Heap.start_allocator, hlimit]
  rfl

theorem inward_enters (s : Session) {v : Value} (hw : v.WellFormed) (hf : v.holdsFunction = false) :
    (¬ s.heap.Unlimited ∧ s.inward v = .error .outOfMemory) ∨ ∃ d ts n,
      s.inward v = .ok (d, s.withHeap ((Crossing.grown s.heap ts).spending n)) ∧ d.isNil = v.isNil ∧
        ∀ h', Crossing.Carries h' s.heap.tables.size ts →
          Crossing.Unfolds h' Crossing.NoHandle d v.normal := by
  obtain ⟨hlimit, hd⟩ | ⟨d, ts, n, hd, hnil, hu⟩ :=
    Crossing.builds_anywhere s.id s.pins (Crossing.enters s.id s.pins hw hf) s.heap
  · exact .inl ⟨hlimit, by simp only [inward, hd, Except.map]⟩
  · exact .inr ⟨d, ts, n, by simp only [inward, hd, Except.map, withHeap], hnil, hu⟩

theorem outward_plain (s : Session) {d : Datum} {v : Value}
    (hu : Crossing.Unfolds s.heap Crossing.NoHandle d v) : s.outward d = (.ok v, s) := by
  have ho : Crossing.outward s.heap d ⟨s.id, s.nextSlot, []⟩ = (.ok v, ⟨s.id, s.nextSlot, []⟩) :=
    Crossing.unfolds_outward hu _ [] _ (Crossing.clear_start _ d)
  simp [outward, ho]

end Session

namespace Lua

def Heap.getGlobal (h : Heap) (name : String) : Datum := h.get h.globals (.text name)

def Heap.setGlobal (h : Heap) (name : String) (d : Datum) : Heap := h.set h.globals (.text name) d

def Heap.GlobalsLack (h : Heap) (event : String) : Prop :=
  -- the table of globals has no metamethod for an event
  ∀ m, (h.table h.globals).metatable = some m → m < h.tables.size ∧ h.get m (.text event) = .nil

def Heap.SetsGlobal (h : Heap) (name : String) : Prop :=
  -- setting a global variable calls no metamethod: either it is there already or there is none
  (h.getGlobal name).isNil = false ∨ h.GlobalsLack "__newindex"

def Heap.ReadsGlobal (h : Heap) (name : String) : Prop :=
  (h.getGlobal name).isNil = false ∨ h.GlobalsLack "__index"

def Heap.Unfinalized (h : Heap) : Prop :=
  -- no table has a finalizer, which an interpreter would run whenever it makes something new
  ∀ a m, (h.table a).metatable = some m → h.get m (.text "__gc") = .nil

theorem Heap.without_metatables {h : Heap} (hall : h.tables.all (·.metatable.isNone) = true) (a : Nat) :
    (h.table a).metatable = none := by
  rw [Heap.table, Array.getD_eq_getD_getElem?]
  cases ht : h.tables[a]? with
  | none => rfl
  | some t =>
    obtain ⟨ha, rfl⟩ := Array.getElem?_eq_some_iff.mp ht
    simpa using Array.all_eq_true.mp hall a ha

theorem Heap.globalsLack_metamethod (h : Heap) (event : String) (hl : h.GlobalsLack event) :
    h.metamethod (.table h.globals) event = .nil := by
  simp only [Heap.metamethod, Heap.metatable?]
  split
  · next m hm => exact (hl m hm).2
  · rfl

@[simp] theorem Heap.setGlobal_globals (h : Heap) (name : String) (d : Datum) :
    (h.setGlobal name d).globals = h.globals := rfl

@[simp] theorem Heap.get_set_global (h : Heap) (name : String) (d : Datum) :
    (h.setGlobal name d).getGlobal name = d := by
  have ht : (h.setGlobal name d).table h.globals =
      (h.table h.globals).set (.text name) d := by
    simp only [Heap.table, Heap.setGlobal, Heap.set, Heap.modify, Array.getD_eq_getD_getElem?]
    rw [Array.getElem?_modify, if_pos rfl, Array.getElem?_eq_getElem h.there]
    rfl
  rw [Heap.getGlobal, Heap.get, setGlobal_globals, ht, Table.get_set_text]

/-- New tables stand in no one's way. -/
theorem Heap.grown_setsGlobal (h : Heap) (ts : List Table) (name : String)
    (hs : h.SetsGlobal name) : (Crossing.grown h ts).SetsGlobal name := by
  have ht : ∀ a, a < h.tables.size → (Crossing.grown h ts).table a = h.table a :=
    fun a ha => Crossing.table_grown h ts a ha
  rcases hs with hthere | hlack
  · refine .inl ?_
    rw [Heap.getGlobal, Heap.get, Crossing.grown_globals, ht _ h.there]
    exact hthere
  · refine .inr ?_
    intro m hm
    rw [Crossing.grown_globals, ht _ h.there] at hm
    obtain ⟨hlt, hget⟩ := hlack m hm
    refine ⟨by rw [Crossing.grown_size]; omega, ?_⟩
    rw [Heap.get, ht m hlt]
    exact hget

theorem isNil_iff (d : Datum) : d.isNil = true ↔ d = .nil := by
  cases d <;> simp [Datum.isNil]

theorem indexChain_plain (fuel a : Nat) (text : ByteArray) (spot : Spot) (k : Datum → Heap → Step)
    (h : Heap) (hr : (h.get a (.string text)).isNil = false ∨ h.metamethod (.table a) "__index" = .nil) :
    indexChain (fuel + 1) (.table a) (.string text) spot k h = k (h.get a (.string text)) h := by
  by_cases hnil : (h.get a (.string text)).isNil = true
  · have hget := (isNil_iff _).mp hnil
    have hm : h.metamethod (.table a) "__index" = .nil := hr.resolve_left (by simp [hnil])
    simp [indexChain, Datum.key?, hget, hm, Datum.isNil]
  · simp [indexChain, Datum.key?, hnil]

theorem setIndexChain_plain (fuel a : Nat) (text : ByteArray) (d : Datum) (spot : Spot)
    (k : Heap → Step) (h : Heap) (hfree : h.Unlimited)
    (hs : (h.get a (.string text)).isNil = false ∨ h.metamethod (.table a) "__newindex" = .nil) :
    setIndexChain (fuel + 1) (.table a) (.string text) d spot k h = k (h.set a (.string text) d) := by
  by_cases hnil : (h.get a (.string text)).isNil = true
  · have hm : h.metamethod (.table a) "__newindex" = .nil := hs.resolve_left (by simp [hnil])
    simp [setIndexChain, Datum.key?, hnil, hm, rawSet, hfree]
  · simp [setIndexChain, Datum.key?, hnil, rawSet, hfree]

/-- Reading a global variable takes memory for its name. -/
theorem Machine.reading_plain {h h' : Heap} {name : String}
    (hc : h.claim? (stringSize name.toUTF8.size) = some h') (hr : h'.ReadsGlobal name) :
    Machine.reading name h = ⟨.finish [h'.getGlobal name] h', []⟩ := by
  rw [Machine.reading, build, claim, hc]
  exact congrArg (Machine.mk · [])
    (indexChain_plain _ _ _ _ _ h' (hr.imp_right (h'.globalsLack_metamethod _)))

theorem Machine.reading_unlimited {h : Heap} (hfree : h.Unlimited) {name : String}
    (hr : h.ReadsGlobal name) : Machine.reading name h = ⟨.finish [h.getGlobal name] h, []⟩ :=
  reading_plain (Heap.claim_unlimited hfree _) hr

theorem Machine.writing_unlimited {h : Heap} (hfree : h.Unlimited) {name : String} (d : Datum)
    (hs : h.SetsGlobal name) : Machine.writing name d h = ⟨.finish [] (h.setGlobal name d), []⟩ := by
  rw [Machine.writing, build_unlimited hfree]
  exact congrArg (Machine.mk · [])
    (setIndexChain_plain _ _ _ _ _ _ h hfree (hs.imp_right (h.globalsLack_metamethod _)))

end Lua

namespace Bridge

section
variable {b : Bridge} {s : Session} (hs : b.session = some s)
include hs

@[simp] theorem find_open : b.find? s.id = some s := by
  simp [find?, hs]

@[simp] theorem update_open (f : Session → Session) : (b.update s.id f).session = some (f s) := by
  simp [update, hs]

@[simp] theorem takeHeap_open : b.takeHeap s.id = (s.heap, b.putHeap s.id default) := by
  simp [takeHeap, hs, putHeap]

@[simp] theorem putHeap_open (h : Heap) : (b.putHeap s.id h).session = some (s.withHeap h) :=
  update_open hs fun s => s.withHeap h

@[simp] theorem enterRun_open : (b.enterRun s.id).session = some { s with runs := s.runs + 1 } :=
  update_open hs _

@[simp] theorem leaveRun_open : (b.leaveRun s.id).session = some { s with runs := s.runs - 1 } := by
  simp [leaveRun, update, hs]

/-- A run that ends at once leaves its heap in the session. -/
theorem run_finish (host : Host) (fuel : Nat) (machine : Heap → Machine) (values : List Datum)
    (h : Heap) (hm : machine s.heap = ⟨.finish values h, []⟩) :
    ∃ b', run host (fuel + 2) b s.id machine = some (.ok (firstValue values), b') ∧
      b'.session = some { s with runs := s.runs + 1, heap := h } := by
  have henter := enterRun_open hs
  have htake := takeHeap_open henter
  have hput := putHeap_open henter default
  refine ⟨((b.enterRun s.id).putHeap s.id default).putHeap s.id h, ?_, putHeap_open hput h⟩
  simp only [run, htake, hm, drive, Machine.advance, answer]

theorem setGlobal_plain (host : Host) (fuel : Nat) (name : String) (v : Value) (d : Datum)
    {h : Heap} (hfree : h.Unlimited) (hv : s.inward v = .ok (d, s.withHeap h))
    (hset : h.SetsGlobal name) :
    ∃ b', setGlobal host (fuel + 3) b name v = some (.ok (), b') ∧
      b'.session = some (s.withHeap (h.setGlobal name d)) := by
  have hopen := update_open hs fun _ => s.withHeap h
  obtain ⟨b', hrun, hb'⟩ := run_finish hopen host fuel (.writing name d) [] _
    (Machine.writing_unlimited hfree d hset)
  refine ⟨b'.leaveRun s.id, ?_, leaveRun_open hb'⟩
  have hstart : run host (fuel + 2) (b.update s.id fun _ => s.withHeap h) s.id (.writing name d) =
      some (.ok (firstValue []), b') := hrun
  simp [setGlobal, withSession, hs, inward, hv, hstart]
  rfl

theorem getGlobal_plain (host : Host) (fuel : Nat) (name : String) (v : Value)
    (hfree : s.heap.Unlimited) (hr : s.heap.ReadsGlobal name)
    (hu : Crossing.Unfolds s.heap Crossing.NoHandle (s.heap.getGlobal name) v) :
    ∃ b', getGlobal host (fuel + 4) b name = some (.ok v, b') ∧ b'.session = some s := by
  obtain ⟨b', hrun, hb'⟩ := run_finish hs host fuel (.reading name) _ _
    (Machine.reading_unlimited hfree hr)
  have hout := Session.outward_plain { s with runs := s.runs + 1, heap := s.heap } hu
  have hfind : b'.find? s.id = some { s with runs := s.runs + 1, heap := s.heap } :=
    find_open hb'
  have hupdate := update_open hb' fun _ => { s with runs := s.runs + 1, heap := s.heap }
  refine ⟨_, ?_, leaveRun_open hupdate⟩
  simp only [getGlobal, withSession, hs, runOutward, hrun, firstValue, List.headD_cons, outward,
    hfind, hout]

end

/-- What crosses comes back as its normal form, and a normal form as it is; only a limit of the memory can
keep it from crossing.  So it does through a global variable of any open bridge without a limit, as long as
no metamethod of the table of globals takes the assignment, or the reading of a nil, and no finalizer can
come between. -/
theorem global_normal (v : Value) (hw : v.WellFormed) (hf : v.holdsFunction = false) :
    (∀ s : Session, (¬ s.heap.Unlimited ∧ s.inward v = .error .outOfMemory) ∨
      ∃ d s', s.inward v = .ok (d, s') ∧ s'.outward d = (.ok v.normal, s')) ∧
    (v.normal.WellFormed ∧ v.normal.holdsFunction = false ∧ v.normal.normal = v.normal) ∧
    ∀ (host : Host) (b : Bridge) (s : Session) (name : String), b.session = some s →
      s.heap.Unlimited → s.heap.Unfinalized → s.heap.SetsGlobal name → ∀ fuel, ∃ b' s',
        setGlobal host (fuel + 3) b name v = some (.ok (), b') ∧ b'.session = some s' ∧
        ((v.isNil = true → s'.heap.ReadsGlobal name) → ∀ fuel, ∃ b'',
          getGlobal host (fuel + 4) b' name = some (.ok v.normal, b'') ∧ b''.session = some s') := by
  refine ⟨?_, ⟨Value.normal_wellFormed hw, Value.normal_plain hw hf, Value.normal_normal hw⟩, ?_⟩
  · intro s
    obtain hrefused | ⟨d, ts, n, hd, -, hu⟩ := s.inward_enters hw hf
    · exact .inl hrefused
    · exact .inr ⟨d, _, hd, Session.outward_plain _ (hu _ (Crossing.carries_spending s.heap ts n))⟩
  · intro host b s name hs hfree _ hset fuel
    obtain ⟨hlimit, -⟩ | ⟨d, ts, n, hd, hnil, hu⟩ := s.inward_enters hw hf
    · exact absurd hfree hlimit
    have hgrown : ((Crossing.grown s.heap ts).spending n).Unlimited := hfree
    obtain ⟨b', hb', hopen⟩ := setGlobal_plain hs host fuel name v d hgrown hd
      (s.heap.grown_setsGlobal ts name hset)
    have hget : (((Crossing.grown s.heap ts).spending n).setGlobal name d).getGlobal name = d :=
      Heap.get_set_global _ name d
    have hcarries : Crossing.Carries (((Crossing.grown s.heap ts).spending n).setGlobal name d)
        s.heap.tables.size ts :=
      Crossing.carries_modify _ s.heap.there (Crossing.carries_spending s.heap ts n)
    refine ⟨b', s.withHeap (((Crossing.grown s.heap ts).spending n).setGlobal name d), hb', hopen, ?_⟩
    intro hread fuel
    apply getGlobal_plain hopen host fuel name _ hgrown
    · by_cases hv : v.isNil = true
      · exact hread hv
      · refine .inl ?_
        rw [Session.withHeap, hget, hnil]
        simpa using hv
    · rw [Session.withHeap, hget]
      exact hu _ hcarries

/-- A list with a hole at its end, through a bridge that was just opened. -/
theorem global_list :
    (Value.array [.int 7, .nil]).WellFormed ∧ (Value.array [.int 7, .nil]).holdsFunction = false ∧
    (Value.array [.int 7, .nil]).normal = .array [.int 7] ∧
    ∃ b' b'', setGlobal Host.none 3 (.start 0 .standard) "x" (.array [.int 7, .nil]) =
        some (.ok (), b') ∧
      getGlobal Host.none 4 b' "x" = some (.ok (.array [.int 7]), b'') := by
  have hw : (Value.array [.int 7, .nil]).WellFormed := by
    apply Value.WellFormed.array _ (by decide)
    intro v hv
    simp only [List.mem_cons, List.not_mem_nil, or_false] at hv
    rcases hv with rfl | rfl
    · exact .int 7
    · exact .nil
  have hnormal : (Value.array [.int 7, .nil]).normal = .array [.int 7] := by
    simp [Value.normal, Value.normalItems, Value.isNil, Value.tableForm, Value.numerals, Dict.find?]
  have hplain : ∀ a, ((Session.start ⟨0, 0⟩ .standard).heap.table a).metatable = none :=
    Heap.without_metatables (by decide +kernel)
  have hset : (Session.start ⟨0, 0⟩ .standard).heap.SetsGlobal "x" := by
    refine .inr ?_
    intro m hm
    rw [hplain] at hm
    exact absurd hm (by simp)
  have hquiet : (Session.start ⟨0, 0⟩ .standard).heap.Unfinalized := by
    intro a m hm
    rw [hplain] at hm
    exact absurd hm (by simp)
  obtain ⟨b', s', hb', -, hget⟩ := (global_normal _ hw rfl).2.2 Host.none (.start 0 .standard)
    (.start ⟨0, 0⟩ .standard) "x" rfl (Session.start_unlimited _ rfl) hquiet hset 0
  obtain ⟨b'', hb'', -⟩ := hget (fun hnil => absurd hnil (by simp [Value.isNil])) 0
  exact ⟨hw, rfl, hnormal, b', b'', hb', hnormal ▸ hb''⟩

def fullSession : Session := .start ⟨0, 0⟩ { Config.standard with memoryLimit := some 1 }

theorem full_refuses : ¬ ∃ d s', fullSession.inward (.string "x") = .ok (d, s') := by
  rintro ⟨d, s', hin⟩
  have hnone : (fullSession.inward (.string "x")).toOption.isNone = true := by decide +kernel
  rw [hin] at hnone
  cases hnone

/-- A script may answer for global variables that are nil, so not every value comes back from every open
bridge, and a limit of the memory may keep a value from crossing at all. -/
theorem global_shadowed : (¬ ∀ (s : Session) (v : Value), v.WellFormed → v.holdsFunction = false →
      ∃ d s', s.inward v = .ok (d, s')) ∧
    ¬ ∀ (b b' b'' : Bridge) (name : String) (v : Value)
    (r : Except ScriptError Value), b.isClosed = false → v.WellFormed → v.holdsFunction = false →
      setGlobal Host.none 9 b name v = some (.ok (), b') →
      getGlobal Host.none 9 b' name = some (r, b'') → r = .ok v.normal := by
  refine ⟨fun hall => full_refuses (hall fullSession (.string "x") (.string "x") rfl), ?_⟩
  intro hall
  have hrun : ((executeNamed Host.none 99 (.start 0 .standard) "setmetatable(_G, {__index = {x = 1}})"
      "script").bind fun r => if r.2.isClosed then none else
        (setGlobal Host.none 9 r.2 "x" .nil).bind fun r =>
        (r.1.toOption.bind fun _ => getGlobal Host.none 9 r.2 "x").map fun r =>
          r.1.toOption.all (!·.isNil)) = some true := by decide +kernel
  obtain ⟨⟨_, b⟩, -, hrun⟩ := Option.bind_eq_some_iff.mp hrun
  split at hrun
  · simp at hrun
  · next hopen =>
    obtain ⟨⟨set, b'⟩, hset, hrun⟩ := Option.bind_eq_some_iff.mp hrun
    obtain ⟨⟨r, b''⟩, hget, hnil⟩ := Option.map_eq_some_iff.mp hrun
    obtain ⟨_, hok, hget⟩ := Option.bind_eq_some_iff.mp hget
    cases set with
    | error e => simp [Except.toOption] at hok
    | ok u =>
      obtain rfl := hall b b' b'' "x" .nil r (by simpa using hopen) .nil rfl hset hget
      simp [Except.toOption, Value.normal, Value.isNil] at hnil

end Bridge

end ScriptHost
