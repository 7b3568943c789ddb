import ScriptHost.Proofs.Bridge.Turns
import ScriptHost.Proofs.Crossing.Received
import ScriptHost.Proofs.Ui.Built

/-!
# Props on their way through a script

The props of a node cross three times: the script's table goes to the factory, the factory's node comes
back as new tables, and the node that the script returns is read by the host.  The first crossing writes
the table out, the other two together make the normal form of the node.  So props come back as they were
received unless a map in them has exactly the keys of a list: nested in the props it comes back as that
list, and as the props themselves it is refused.
-/

set_option autoImplicit false

namespace ScriptHost
open Lua

namespace Factory

def bare (tag : String) (props : Value) : Dict Value :=
  [("__ui", .bool true), ("props", props), ("type", .string tag)]

theorem bare_ordered (tag : String) (props : Value) : Dict.Ordered (bare tag props) := by
  have hkeys : ((bare tag props).map (·.1)).Pairwise (· < ·) :=
    (by decide : ["__ui", "props", "type"].Pairwise (· < ·))
  exact List.pairwise_map.mp hkeys

theorem bare_unlisted (tag : String) (props : Value) :
    ¬ ((bare tag props).map (·.1)).Perm (Value.numerals (bare tag props).length) :=
  (by decide : ¬ ["__ui", "props", "type"].Perm (Value.numerals 3))

theorem node_normal (tag : String) (props : Dict Value) :
    (node tag props []).normal = .map (bare tag (Value.map props).normal) := by
  have hentries : Value.normalMembers (bare tag (.map props)) = bare tag (Value.map props).normal := by
    simp [bare, Value.normalMembers, Value.isNil, Value.normal]
  have hnode : node tag props [] = .map (bare tag (.map props)) := rfl
  rw [hnode, Value.normal, hentries, Value.tableForm, if_neg (bare_unlisted tag _),
    Dict.ofList_of_ordered (bare_ordered tag _)]

theorem node_wellFormed {props : Dict Value} (h : (Value.map props).WellFormed) (tag : String) :
    (node tag props []).WellFormed := by
  refine .map (bare tag (.map props)) (by simp [bare]) (bare_ordered tag _) ?_
  simp only [bare, List.forall_mem_cons]
  exact ⟨.bool true, h, .string tag, by simp⟩

theorem node_plain {props : Dict Value} (h : (Value.map props).holdsFunction = false) (tag : String) :
    (node tag props []).holdsFunction = false := by
  rw [Value.holdsFunction] at h
  simp [node, Value.holdsFunction, Value.membersHoldFunction, h]

theorem carried_props {props : Dict Value} (h : UiNode.isMarked (.map props) = false) :
    carried [.map props] = [] := by
  have hnone : nodesIn (.map props) = [] := by simp [nodesIn, h]
  have hprops : isNodes (.map props) = false := by simp [isNodes, h, hnone]
  show nodesIn (if isNodes (.map props) then .map props else .nil) = []
  rw [hprops]
  rfl

/-- What is read of a node without children: a map is the props, an empty table none, a list refused. -/
theorem ofValue_bare (tag : String) (props : Value) :
    UiNode.ofValue (.map (bare tag props)) =
      (UiNode.propsOf tag (.map (bare tag props))).map fun props => some (.mk tag props none) := by
  have hmarked : UiNode.isMarked (.map (bare tag props)) = true := rfl
  have htag : UiNode.tagOf (.map (bare tag props)) = .ok tag := rfl
  have hchildren : UiNode.childrenIn tag (bare tag props) = .ok none := rfl
  rw [UiNode.ofValue, if_pos hmarked]
  simp only [htag, hchildren]
  cases UiNode.propsOf tag (.map (bare tag props)) <;> rfl

end Factory

theorem Session.outward_id (s : Session) (d : Datum) : (s.outward d).2.id = s.id := by
  rw [outward]
  split <;> rfl

namespace Bridge

theorem outwardAll_one {b b' : Bridge} {id : SessionId} {d : Datum} {vs : List Value}
    (h : b.outwardAll id [d] = (.ok vs, b')) :
    ∃ s s' v, b.find? id = some s ∧ s.outward d = (.ok v, s') ∧ vs = [v] ∧ b'.find? id = some s' := by
  simp only [outwardAll] at h
  split at h
  · simp at h
  · next s hs =>
    split at h
    · simp at h
    · next v s' hv =>
      obtain ⟨hvs, rfl⟩ := Prod.mk.inj h
      have hid : s'.id = id := by
        rw [← (mem_of_find hs).2, ← s.outward_id d, hv]
      refine ⟨s, s', v, hs, hv, (Except.ok.inj hvs).symm, ?_⟩
      rw [find_update b id _ fun _ _ => hid, hs, Option.map_some]

theorem inward_found {b b' : Bridge} {id : SessionId} {v : Value} {d : Datum}
    (h : b.inward id v = (.ok d, b')) :
    ∃ s s', b.find? id = some s ∧ s.inward v = .ok (d, s') ∧ b'.find? id = some s' := by
  simp only [Bridge.inward] at h
  split at h
  · simp at h
  · next s hs =>
    split at h
    · simp at h
    · next e s' hv =>
      obtain ⟨rfl, rfl⟩ : e = d ∧ _ = b' := by simpa using h
      obtain ⟨heap, rfl⟩ := inward_session hv
      have hfound := find_update b id (fun _ => s.withHeap heap) fun _ _ => (mem_of_find hs).2
      rw [hs] at hfound
      exact ⟨s, s.withHeap heap, hs, hv, hfound⟩

theorem takeHeap_unpin {b before : Bridge} {id : SessionId} {s : Session} (h : b.find? id = some s) :
    ((b.unpinSince before).takeHeap id).1 = s.heap := by
  have hfind : (b.unpinSince before).find? id = some (s.dropFrom (before.nextSlot s.id)) := by
    rw [find_map (f := fun s => s.dropFrom (before.nextSlot s.id)) (fun _ => rfl)
      (unpinSince_sessions b before), h, Option.map_some]
  simp only [takeHeap, hfind]
  rfl

theorem putHeap_found {b : Bridge} {id : SessionId} {h : Heap} {s : Session}
    (hs : (b.putHeap id h).find? id = some s) : s.heap = h := by
  have hput : (b.putHeap id h).find? id = (b.find? id).map (·.withHeap h) :=
    find_update b id _ fun _ hid => hid
  rw [hput] at hs
  obtain ⟨t, -, rfl⟩ := Option.map_eq_some_iff.mp hs
  rfl

/-- What a host function is given for plain data is the data written out. -/
theorem received_unfolds {b : Bridge} {id : SessionId} {h : Heap} {p : Datum} {v : Value}
    (hv : ((b.putHeap id h).outwardAll id [p]).1 = .ok [v])
    (hp : ∀ f, ¬ Crossing.Reaches h p (.function f)) :
    Crossing.Unfolds h Crossing.NoHandle p v := by
  obtain ⟨s, s', w, hs, hout, hw, -⟩ := outwardAll_one (Prod.ext hv rfl)
  obtain rfl : v = w := by simpa using hw
  obtain rfl := putHeap_found hs
  obtain ⟨fs, ⟨e, he⟩ | ⟨v', hv', hcrossing, -⟩⟩ := s.outward_cases p
  · simp [he] at hout
  · obtain rfl : v' = v := by
      rw [hv'] at hout
      exact Except.ok.inj (Prod.mk.inj hout).1
    exact Crossing.unfolds_functionless (Crossing.outwardWithin_unfolds _ _ [] _ _ _ v' hcrossing) hp

/-- What a successful call of a factory with one argument did: the argument went out, the factory built
a node of it, and the node went in. -/
theorem component_answered {host : Host} {fuel : Nat} {b b' : Bridge} {id : SessionId} {tag : String}
    {p d : Datum} (hcall : callHost host fuel b id (.standard (.component tag)) [p] = some (.ok d, b')) :
    ∃ (s s' : Session) (v w : Value), (b.outwardAll id [p]).1 = .ok [v] ∧
      Factory.build tag [v] = .ok w ∧ s.inward w = .ok (d, s') ∧ (b'.takeHeap id).1 = s'.heap := by
  cases fuel with
  | zero => simp [callHost] at hcall
  | succ fuel =>
    simp only [callHost] at hcall
    split at hcall
    · simp at hcall
    · next vs b₁ hargs =>
      obtain ⟨-, s₁, v, -, -, rfl, hs₁⟩ := outwardAll_one hargs
      cases fuel with
      | zero => simp [serve] at hcall
      | succ fuel =>
        simp only [serve, standard] at hcall
        cases hbuild : Factory.build tag [v] with
        | error e => simp [hbuild] at hcall
        | ok w =>
          simp only [hbuild, Option.some.injEq, Prod.mk.injEq] at hcall
          obtain ⟨hin, rfl⟩ := hcall
          obtain ⟨s, s', -, hw, hs'⟩ := inward_found (Prod.ext hin rfl)
          exact ⟨s, s', v, w, by rw [hargs], hbuild, hw, takeHeap_unpin hs'⟩

/-- A run of a user-interface script that calls a factory with one table, is answered a node and ends
with that node, no table of it touched in between. -/
structure FactoryRun (host : Host) (r : UiReady) (fuel : Nat) (tag : String) where
  calling : RunState
  before : Nat
  reached : RunState.turns host r.session.id before (r.start fuel) = some calling
  -- the table that the factory is called with
  table : Nat
  heap : Heap
  stack : List Frame
  calls : calling.machine.advance = .host (.standard (.component tag)) [.table table] heap stack
  called : RunState
  turned : calling.turn host r.session.id = some called
  -- the node that the script has from the factory
  node : Datum
  made : Heap
  answered : called.machine.now = .finish [node] made
  ending : RunState
  after : Nat
  goesOn : RunState.turns host r.session.id after called = some ending
  more : List Datum
  last : Heap
  ends : ending.machine.advance = .finished (node :: more) last
  kept : ∀ c, Crossing.Reaches made node (.table c) → (last.table c).pairs = (made.table c).pairs

namespace FactoryRun

variable {host : Host} {r : UiReady} {fuel : Nat} {tag : String} (run : FactoryRun host r fuel tag)

def received : Except ScriptError (List Value) :=
  ((run.calling.bridge.putHeap r.session.id run.heap).outwardAll r.session.id [.table run.table]).1

theorem drive_ending :
    (r.start fuel).drive host r.session.id =
      some (.ok (run.node :: run.more), run.last, run.ending.bridge) := by
  rw [RunState.drive_turns run.reached, RunState.drive_turn run.turned,
    RunState.drive_turns run.goesOn, RunState.drive_finished run.ends]

/-- The factory was called, and what it answered is the node on the heap it left. -/
theorem call_succeeds : ∃ k b, callHost host (k + 1) (run.calling.bridge.putHeap r.session.id run.heap)
      r.session.id (.standard (.component tag)) [.table run.table] = some (.ok run.node, b) ∧
    (b.takeHeap r.session.id).1 = run.made := by
  have hturn := run.turned
  have hanswered := run.answered
  rw [RunState.turn] at hturn
  split at hturn
  · simp at hturn
  · next k _ =>
    simp only [run.calls] at hturn
    obtain ⟨⟨x, b⟩, hcall, hcalled⟩ := Option.map_eq_some_iff.mp hturn
    rw [← hcalled, RunState.answered] at hanswered
    cases x with
    | error e => simp [Machine.interrupt] at hanswered
    | ok d =>
      simp only [Machine.resume, Lua.Step.finish.injEq, List.cons.injEq, and_true] at hanswered
      obtain ⟨rfl, hmade⟩ := hanswered
      exact ⟨k, b, hcall, hmade⟩

end FactoryRun

/-- Props that a script may pass: texts for keys, plain data for values, and no mark of a node. -/
structure PlainProps (h : Heap) (a : Nat) : Prop where
  texts : Crossing.TextKeys h a
  functionless : ∀ f, ¬ Crossing.Reaches h (.table a) (.function f)
  unmarked : (.text UiNode.mark, .bool true) ∉ (h.table a).pairs
  small : ∀ c, Crossing.Reaches h (.table a) (.table c) → (h.table c).pairs.length < 2 ^ 63

theorem plainProps_unmarked {h : Heap} {a : Nat} (hp : PlainProps h a)
    {issued : Handle → Datum → Prop} {v : Value} (hu : Crossing.Unfolds h issued (.table a) v) :
    UiNode.isMarked v = false := by
  rw [← Bool.not_eq_true]
  intro hmarked
  simp only [UiNode.isMarked] at hmarked
  split at hmarked
  · next hget =>
    obtain ⟨e, he, hb⟩ := Crossing.textKeys_member hp.texts hu hget
    cases hb with
    | bool => exact hp.unmarked he
  · simp at hmarked

/-- The props that a factory receives for a table, and that they carry no children. -/
theorem plainProps_received {h : Heap} {a : Nat} (hp : PlainProps h a) {v : Value}
    (hu : Crossing.Unfolds h Crossing.NoHandle (.table a) v) :
    ∃ props, (v = .map props ∨ v = .array [] ∧ props = []) ∧ Factory.givenProps v = props ∧
      Factory.carried [v] = [] ∧ (Value.map props).WellFormed ∧
      (Value.map props).holdsFunction = false ∧ (∀ e ∈ props, e.2.isNil = false) ∧
      ((Value.map props).Unlisted → props ≠ [] → (Value.map props).normal = .map props) := by
  have hunmarked := plainProps_unmarked hp hu
  rcases Crossing.textKeys_unfolds hp.texts hu with ⟨props, rfl⟩ | rfl
  · refine ⟨props, .inl rfl, ?_, ?_, Crossing.unfolds_wellFormed hu hp.small,
      Crossing.unfolds_holdsFunction hu, Crossing.member_isNil hu, fun hv _ => Crossing.unfolds_settled hu hv⟩
    · simp [Factory.givenProps, hunmarked]
    · exact Factory.carried_props hunmarked
  · exact ⟨[], .inr ⟨rfl, rfl⟩, rfl, rfl, .map [] (by simp) .nil (by simp), rfl, by simp, by simp⟩

/-- The node that was made is still there in the end, and is written out as the normal form of what the
factory built of the props it received. -/
theorem ending_unfolds {host : Host} {r : UiReady} {fuel : Nat} {tag : String}
    (run : FactoryRun host r fuel tag) (hp : PlainProps run.heap run.table) :
    ∃ v props, run.received = .ok [v] ∧ (v = .map props ∨ v = .array [] ∧ props = []) ∧
      (∀ e ∈ props, e.2.isNil = false) ∧
      ((Value.map props).Unlisted → props ≠ [] → (Value.map props).normal = .map props) ∧
      Crossing.Unfolds run.last Crossing.NoHandle run.node
        (.map (Factory.bare tag (Value.map props).normal)) := by
  obtain ⟨k, b, hcall, hmade⟩ := run.call_succeeds
  obtain ⟨s, s', v, w, hreceived, hbuild, hin, htaken⟩ := component_answered hcall
  have hu := received_unfolds hreceived hp.functionless
  obtain ⟨props, hv, hgiven, hcarried, hwell, hplain, hnil, hsettled⟩ := plainProps_received hp hu
  have hnode : w = Factory.node tag props [] := by
    obtain ⟨rfl, -⟩ := Factory.build_ok hbuild
    rw [hcarried, show Factory.givenProps (Factory.first [v]) = props from hgiven]
  rw [hnode] at hin
  obtain ⟨d, ts, n, hin', -, hwritten⟩ := (s.inward_enters (Factory.node_wellFormed hwell tag)
    (Factory.node_plain hplain tag)).resolve_left fun hrefused => by
      cases hrefused.2.symm.trans hin
  obtain ⟨rfl, rfl⟩ := Prod.mk.inj (Except.ok.inj (hin'.symm.trans hin))
  have hthere := hwritten _ (Crossing.carries_spending s.heap ts n)
  rw [Factory.node_normal] at hthere
  have hmade' : run.made = (Crossing.grown s.heap ts).spending n := hmade.symm.trans htaken
  rw [← hmade'] at hthere
  exact ⟨v, props, hreceived, hv, hnil, hsettled, Crossing.unfolds_frame hthere run.kept⟩

/-- A script that returns the node that a factory made of plain props: if no map in the props received
has exactly the keys of a list, `runUi` answers the node with exactly those props.  In general a map
nested in the props that has such keys comes back as that list, and props that have them are refused. -/
theorem props_through {host : Host} {fuel : Nat} {b : Bridge} {source tag : String} {r : UiReady}
    (hr : uiReady host (fuel + 4) b source b.config.chunkName = some r)
    (run : FactoryRun host r fuel tag) (hp : PlainProps run.heap run.table) :
    ∃ v props b', run.received = .ok [v] ∧ (v = .map props ∨ v = .array [] ∧ props = []) ∧
      ((Value.map props).Unlisted →
        b.runUi host (fuel + 4) source = some (.ok (some (.mk tag props none)), b')) ∧
      (∀ props', (Value.map props).normal = .map props' →
        b.runUi host (fuel + 4) source = some (.ok (some (.mk tag props' none)), b')) ∧
      (props ≠ [] → (props.map (·.1)).Perm (Value.numerals props.length) →
        b.runUi host (fuel + 4) source = some (.error (.ofError (.marshal
          ("props of '" ++ tag ++ "' must be a table, got " ++ "array")) b.config.chunkName), b')) := by
  obtain ⟨v, props, hreceived, hv, hnil, hsettled, hu⟩ := ending_unfolds run hp
  obtain ⟨b', hevaluate⟩ := evaluateUi_finished hr run.drive_ending hu
  have hrun : b.runUi host (fuel + 4) source =
      diagnosed b.config.chunkName
        (some (UiNode.ofValue (.map (Factory.bare tag (Value.map props).normal)), b')) := by
    rw [runUi, runUiNamed, hevaluate]
  rw [Factory.ofValue_bare] at hrun
  have hmap : ∀ props', (Value.map props).normal = .map props' →
      b.runUi host (fuel + 4) source = some (.ok (some (.mk tag props' none)), b') := by
    intro props' hnormal
    rw [hrun, hnormal]
    rfl
  refine ⟨v, props, b', hreceived, hv, ?_, hmap, ?_⟩
  · intro hunlisted
    by_cases hempty : props = []
    · rw [hrun, hempty]
      rfl
    · exact hmap props (hsettled hunlisted hempty)
  · intro hsome hkeys
    obtain ⟨item, items, hnormal⟩ := Value.map_listed hnil hkeys hsome
    rw [hrun, hnormal]
    rfl

theorem plainProps_single {h : Heap} {a : Nat} {key value : String}
    (hpairs : (h.table a).pairs = [(.text key, .text value)]) : PlainProps h a := by
  have hreaches : ∀ e, Crossing.Reaches h (.table a) e → e = .table a ∨ e = .text value := by
    intro e he
    rcases Crossing.reaches_cases he with rfl | ⟨a', k, x, ha, hx, hr⟩
    · exact .inl rfl
    · obtain rfl : a = a' := Datum.table.inj ha
      rw [hpairs] at hx
      obtain ⟨-, rfl⟩ := Prod.mk.inj (List.mem_singleton.mp hx)
      exact .inr (Crossing.reaches_leaf (by simp [Datum.text]) hr)
  refine ⟨?_, ?_, ?_, ?_⟩
  · intro e he
    rw [hpairs] at he
    exact ⟨key.toUTF8, by rw [List.mem_singleton.mp he]; rfl⟩
  · intro f hf
    rcases hreaches _ hf with hf | hf <;> simp [Datum.text] at hf
  · rw [hpairs]
    simp [Datum.text]
  · intro c hc
    rcases hreaches _ hc with hc | hc
    · obtain rfl := Datum.table.inj hc
      simp [hpairs]
    · simp [Datum.text] at hc

theorem single_unfolds {h : Heap} {a : Nat} {key value : String} {v : Value}
    (hpairs : (h.table a).pairs = [(.text key, .text value)])
    (hu : Crossing.Unfolds h Crossing.NoHandle (.table a) v) : v = .map [(key, .string value)] := by
  let t : Crossing.Issue := ⟨default, 0, []⟩
  have hout := Crossing.unfolds_outward hu _ [] t (Crossing.clear_start h _)
  have hkey : Crossing.mapKey (.text key) = .ok key := Crossing.textOf_text key
  have hvalue : ∀ path,
      Crossing.outwardWithin h h.tables.size path (.text value) t = (.ok (.string value), t) := by
    intro path
    simp only [Datum.text, Crossing.outwardWithin, Crossing.textOf_text, Except.map]
  have hmembers : ∀ path, Crossing.outwardMembers (Crossing.outwardWithin h h.tables.size path)
      [(.text key, .text value)] t = (.ok [(key, .string value)], t) := by
    intro path
    simp only [Crossing.outwardMembers, hkey, hvalue]
  have hsequence : Crossing.sequenceLength? ([(Datum.text key, Datum.text value)].map (·.1)) = none := rfl
  rw [Crossing.outwardWithin_open (Crossing.clear_start h _), Crossing.outwardTable, hpairs, hsequence] at hout
  simp only [hmembers] at hout
  exact (Except.ok.inj (Prod.mk.inj hout).1).symm

def returnsNode (tag : String) (pairs : List (Datum × Datum)) (calling called ending : RunState) : Bool :=
  -- whether three states are the call of a factory with a table of these entries, its return, and
  -- an end with the node, no table touched in between
  match calling.machine.advance, called.machine.now, ending.machine.advance with
  | .host (.standard (.component tag')) [.table a] h _, .finish [d] made, .finished (d' :: _) last =>
    tag' = tag && (h.table a).pairs = pairs && d' = d && last.tables.size = made.tables.size &&
      (List.range made.tables.size).all fun c => (last.table c).pairs = (made.table c).pairs
  | _, _, _ => false

def findRun (host : Host) (fuel : Nat) (b : Bridge) (source tag : String) (pairs : List (Datum × Datum))
    (before after : Nat) : Option Bool :=
  -- looks for such a run, the call after some turns and the end after more
  (uiReady host (fuel + 4) b source b.config.chunkName).bind fun r =>
    (RunState.turns host r.session.id before (r.start fuel)).bind fun calling =>
      (calling.turn host r.session.id).bind fun called =>
        (RunState.turns host r.session.id after called).map fun ending =>
          returnsNode tag pairs calling called ending

theorem findRun_found {host : Host} {fuel before after : Nat} {b : Bridge} {source tag : String}
    {pairs : List (Datum × Datum)} (h : findRun host fuel b source tag pairs before after = some true) :
    ∃ r, uiReady host (fuel + 4) b source b.config.chunkName = some r ∧
      ∃ run : FactoryRun host r fuel tag, (run.heap.table run.table).pairs = pairs := by
  obtain ⟨r, hr, h⟩ := Option.bind_eq_some_iff.mp h
  obtain ⟨calling, hcalling, h⟩ := Option.bind_eq_some_iff.mp h
  obtain ⟨called, hcalled, h⟩ := Option.bind_eq_some_iff.mp h
  obtain ⟨ending, hending, h⟩ := Option.map_eq_some_iff.mp h
  refine ⟨r, hr, ?_⟩
  rw [returnsNode] at h
  split at h
  · next a heap stack d made d' more last hcalls hanswered hends =>
    simp only [Bool.and_eq_true, decide_eq_true_eq, List.all_eq_true, List.mem_range] at h
    obtain ⟨⟨⟨⟨rfl, hpairs⟩, rfl⟩, hsize⟩, hsame⟩ := h
    have hkept : ∀ c, (last.table c).pairs = (made.table c).pairs := by
      intro c
      by_cases hc : c < made.tables.size
      · exact hsame c hc
      · rw [Heap.table, Heap.table, Array.getD_eq_getD_getElem?, Array.getD_eq_getD_getElem?,
          Array.getElem?_eq_none (by omega), Array.getElem?_eq_none (by omega)]
    exact ⟨⟨calling, before, hcalling, a, heap, stack, hcalls, called, hcalled, d', made, hanswered,
      ending, after, hending, more, last, hends, fun c _ => hkept c⟩, hpairs⟩
  · exact absurd h Bool.false_ne_true

/-- The title of a panel comes back. -/
theorem props_through_title :
    let b : Bridge := .start 0 .standard
    let source := "return ui.panel(\x7btitle = \"Tools\"\x7d)"
    ∃ r, uiReady Host.none 9 b source b.config.chunkName = some r ∧
      ∃ run : FactoryRun Host.none r 5 "panel", PlainProps run.heap run.table ∧
        ∃ b', b.runUi Host.none 9 source =
          some (.ok (some (.mk "panel" [("title", .string "Tools")] none)), b') := by
  intro b source
  have hfound : findRun Host.none 5 b source "panel" [(.text "title", .text "Tools")] 1 1 = some true := by
    decide +kernel
  obtain ⟨r, hr, run, hpairs⟩ := findRun_found hfound
  have hp := plainProps_single hpairs
  obtain ⟨v, props, b', hreceived, hv, hsame, -⟩ := props_through hr run hp
  obtain rfl := single_unfolds hpairs (received_unfolds hreceived hp.functionless)
  obtain rfl : [("title", .string "Tools")] = props := by simpa using hv
  have hunlisted : (Value.map [("title", .string "Tools")]).Unlisted := by
    refine .map _ (fun _ => by decide) ?_
    rw [List.forall_mem_singleton]
    exact .string "Tools"
  exact ⟨r, hr, run, hp, b', hsame hunlisted⟩

/-- Props with exactly the keys of a list pass the factory, but not the way back. -/
theorem props_listed : ¬ ∀ (host : Host) (fuel : Nat) (b : Bridge) (source tag : String) (r : UiReady),
    uiReady host (fuel + 4) b source b.config.chunkName = some r →
    ∀ run : FactoryRun host r fuel tag, PlainProps run.heap run.table →
      ∃ props b', (run.received = .ok [.map props] ∨ run.received = .ok [.array []] ∧ props = []) ∧
        b.runUi host (fuel + 4) source = some (.ok (some (.mk tag props none)), b') := by
  intro hall
  let b : Bridge := .start 0 .standard
  let source := "return ui.panel(\x7b[\"1\"] = \"x\"\x7d)"
  have hfound : findRun Host.none 5 b source "panel" [(.text "1", .text "x")] 1 1 = some true := by
    decide +kernel
  have hrefused : (b.runUi Host.none 9 source).map (fun r => r.1.isOk) = some false := by decide +kernel
  obtain ⟨r, hr, run, hpairs⟩ := findRun_found hfound
  obtain ⟨props, b', -, hrun⟩ := hall Host.none 5 b source "panel" r hr run (plainProps_single hpairs)
  rw [hrun] at hrefused
  simp [Except.isOk, Except.toBool] at hrefused

end Bridge
end ScriptHost
