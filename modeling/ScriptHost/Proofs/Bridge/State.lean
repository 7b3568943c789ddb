import ScriptHost.Proofs.Bridge.Coursed
import ScriptHost.Proofs.Crossing.Stands

/-!
# What a session keeps across runs

The functions of `state` work on a map from names to plain values.  `Kept` is that map, and a call changes
it as `Kept.serve` says of the values that were received.  Every call of a run finds the map as the calls
before it left it and answers by it, so a run leaves what its account, replayed on the map, leaves.
-/

set_option autoImplicit false

namespace ScriptHost
open Lua Crossing

structure Neat (d : Dict Value) : Prop where
  ordered : Dict.Ordered d
  there : ∀ e ∈ d, e.2.isNil = false
  plain : ∀ e ∈ d, e.2.holdsFunction = false
  regular : ∀ e ∈ d, e.2.Regular

theorem neat_nil : Neat [] := ⟨List.Pairwise.nil, by simp, by simp, by simp⟩

abbrev Kept := String → Option Value

namespace Kept

def store (m : Kept) : List Value → Kept
  -- nil takes the name away, and a value with a function is not stored
  | .string key :: rest =>
    let v := rest.head?.getD .nil
    if v.holdsFunction then m else Function.update m key (if v.isNil then none else some v)
  | _ => m

def serve (m : Kept) (f : StandardFn) (args : List Value) : Kept :=
  match f with
  | .stateSet => m.store args
  | .stateClear => fun _ => none
  | _ => m

end Kept

def HostCall.change (c : HostCall) (m : Kept) : Kept :=
  match c.function, c.received with
  | .standard f, .ok args => m.serve f args
  | _, _ => m

def Kept.replay (m : Kept) (calls : List HostCall) : Kept := calls.foldl (fun m c => c.change m) m

namespace State

theorem key_other {operation : String} {args : List Value} (h : ∀ key rest, args ≠ .string key :: rest) :
    key operation args = .error (.runtime (operation ++ ": key must be a string")) := by
  unfold key
  split
  · exact absurd rfl (h _ _)
  · rfl

theorem set_string (d : Dict Value) (name : String) (rest : List Value) :
    set d (.string name :: rest) =
      if (rest.head?.getD .nil).holdsFunction then .error (holdsFunction name)
      else if (rest.head?.getD .nil).isNil then .ok (Dict.erase d name)
      else .ok (Dict.insert d name (rest.head?.getD .nil)) := by
  simp only [set, key, List.getElem?_cons_succ, List.head?_eq_getElem?]

theorem set_other (d : Dict Value) {args : List Value} (h : ∀ key rest, args ≠ .string key :: rest) :
    set d args = .error (.runtime "state.set: key must be a string") := by
  simp only [set, key_other h]
  rfl

theorem get_other (d : Dict Value) {args : List Value} (h : ∀ key rest, args ≠ .string key :: rest) :
    get d args = .error (.runtime "state.get: key must be a string") := by
  simp only [get, key_other h]
  rfl

end State

theorem Kept.store_other (m : Kept) {args : List Value} (h : ∀ key rest, args ≠ .string key :: rest) :
    m.store args = m := by
  unfold Kept.store
  split
  · exact absurd rfl (h _ _)
  · rfl

section
variable {d : Dict Value} (hd : Neat d)
include hd

theorem neat_erase (key : String) : Neat (Dict.erase d key) where
  ordered := hd.ordered.sublist List.filter_sublist
  there e he := hd.there e (List.mem_of_mem_filter he)
  plain e he := hd.plain e (List.mem_of_mem_filter he)
  regular e he := hd.regular e (List.mem_of_mem_filter he)

theorem neat_insert (key : String) {v : Value} (hnil : v.isNil = false) (hf : v.holdsFunction = false)
    (hv : v.Regular) : Neat (Dict.insert d key v) := by
  have hmem : ∀ {P : Value → Prop}, P v → (∀ e ∈ d, P e.2) → ∀ e ∈ Dict.insert d key v, P e.2 := by
    intro P hnew hold e he
    rcases Dict.mem_insert_key d key v e he with rfl | hmem
    · exact hnew
    · exact hold e hmem
  exact ⟨Dict.insert_ordered d key v hd.ordered, hmem (P := fun v => v.isNil = false) hnil hd.there,
    hmem (P := fun v => v.holdsFunction = false) hf hd.plain, hmem (P := Value.Regular) hv hd.regular⟩

/-- Storing what was received does to the entries what it does to the map, or it fails and does nothing. -/
theorem set_stores {args : List Value} (hargs : ∀ v ∈ args, v.Regular) :
    (∀ d', State.set d args = .ok d' → Neat d' ∧ Dict.find? d' = Kept.store (Dict.find? d) args) ∧
      ∀ e, State.set d args = .error e → Kept.store (Dict.find? d) args = Dict.find? d := by
  by_cases hkey : ∃ key rest, args = .string key :: rest
  · obtain ⟨key, rest, rfl⟩ := hkey
    have hregular : (rest.head?.getD .nil).Regular := by
      cases rest with
      | nil => exact .nil
      | cons v rest => exact hargs v (by simp)
    rw [State.set_string]
    have hstore : Kept.store (Dict.find? d) (.string key :: rest) =
        if (rest.head?.getD .nil).holdsFunction then Dict.find? d
        else Function.update (Dict.find? d) key
          (if (rest.head?.getD .nil).isNil then none else some (rest.head?.getD .nil)) := rfl
    rw [hstore]
    generalize rest.head?.getD .nil = v at hregular
    cases hf : v.holdsFunction with
    | true => exact ⟨fun d' h => (by cases h), fun _ _ => rfl⟩
    | false =>
      cases hnil : v.isNil with
      | true =>
        refine ⟨fun d' h => ?_, fun e h => by cases h⟩
        obtain rfl := Except.ok.inj h
        refine ⟨neat_erase hd key, funext fun other => ?_⟩
        simp [Dict.find_erase, Function.update_apply, eq_comm]
      | false =>
        refine ⟨fun d' h => ?_, fun e h => by cases h⟩
        obtain rfl := Except.ok.inj h
        refine ⟨neat_insert hd key hnil hf hregular, funext fun other => ?_⟩
        simp [Function.update_apply, eq_comm]
  · have hother : ∀ key rest, args ≠ .string key :: rest := fun key rest heq => hkey ⟨key, rest, heq⟩
    rw [State.set_other d hother, Kept.store_other _ hother]
    exact ⟨fun d' h => (by cases h), fun _ _ => rfl⟩

end

def Received (h : Heap) (args : List Datum) : Except ScriptError (List Value) → Prop
  -- each as its host value, unless one of them does not cross
  | .ok vs => List.Forall₂ (fun d v => ∃ issued, Unfolds h issued d v) args vs
  | .error e => e.kind = .marshal ∧ ∃ d ∈ args, ¬ Crosses h d

theorem received_regular {h : Heap} {args : List Datum} {vs : List Value} (hr : Received h args (.ok vs)) :
    ∀ v ∈ vs, v.Regular := by
  intro v hv
  obtain ⟨d, hz⟩ := zip_of_mem_right hr.length_eq.symm hv
  obtain ⟨issued, hu⟩ := (List.forall₂_iff_zip.mp hr).2 hz
  exact unfolds_regular hu

def Fails {α : Type} (kind : ErrorKind) (r : Except ScriptError α) : Prop :=
  ∃ e, r = .error e ∧ e.kind = kind

/-- A table shows the map: under the key of each name it has what stands for the value that is kept under
it, and it has nothing else. -/
structure Shows (h : Heap) (a : Nat) (m : Kept) : Prop where
  bare : (h.table a).metatable = none
  entry : ∀ key, Stands h (h.get a (tableKey key)) ((m key).getD .nil)
  keys : ∀ k ∈ (h.table a).pairs.map (·.1), ∃ key, (m key).isSome ∧ k = tableKey key

def Answers (h : Heap) (r : Except ScriptError Datum) (Q : Datum → Prop) : Prop :=
  -- an answer that takes memory, from a heap that may have too little of it
  (¬ h.Unlimited ∧ r = .error .outOfMemory) ∨ ∃ d, r = .ok d ∧ Q d

def Served (m : Kept) (h : Heap) (f : StandardFn) (args : List Value) (r : Except ScriptError Datum) : Prop :=
  -- what the functions of `state` answer by the map that they find, in the heap that the script
  -- goes on with
  match f, args with
  | .stateGet, .string key :: _ => Answers h r fun d => Stands h d ((m key).getD .nil)
  | .stateGet, _ => Fails .runtime r
  | .stateSet, .string _ :: rest =>
    if (rest.head?.getD .nil).holdsFunction then Fails .marshal r else r = .ok .nil
  | .stateSet, _ => Fails .runtime r
  | .stateAll, _ => Answers h r fun d => ∃ a, d = .table a ∧ Shows h a m
  | .stateClear, _ => r = .ok .nil
  | _, _ => True

theorem served_other {m : Kept} {h : Heap} {f : StandardFn} {args : List Value}
    {r : Except ScriptError Datum} (hf : f = .stateGet ∨ f = .stateSet)
    (hargs : ∀ key rest, args ≠ .string key :: rest) (hr : Fails .runtime r) : Served m h f args r := by
  unfold Served
  rcases hf with rfl | rfl
  · split <;> simp_all
  · split <;> simp_all

theorem unfolds_text {h : Heap} {issued : Handle → Datum → Prop} {key : String} {v : Value}
    (hu : Unfolds h issued (.text key) v) : v = .string key := by
  generalize hd : Datum.text key = d at hu
  cases hu with
  | string s =>
    have hread : mapKey (.text key) = mapKey (.text s) := congrArg mapKey hd
    obtain rfl := Except.ok.inj ((textOf_text key).symm.trans (hread.trans (textOf_text s)))
    rfl
  | _ => simp [Datum.text] at hd

structure HostCall.Refines (c : HostCall) (s s' : Session) : Prop where
  received : Received s.heap c.given c.received
  stuck : ∀ e, c.received = .error e → c.answer = .error e
  served : ∀ f args, c.function = .standard f → c.received = .ok args →
    Served (Dict.find? s.state) s'.heap f args c.answer
  changed : Dict.find? s'.state = c.change (Dict.find? s.state)
  failed : ∀ e, c.answer = .error e → s'.state = s.state
  neat : Neat s'.state

theorem Session.outward_error {s s' : Session} {d : Datum} {e : ScriptError}
    (h : s.outward d = (.error e, s')) : e.kind = .marshal ∧ ¬ Crosses s.heap d := by
  unfold outward at h
  split at h
  · next e' issue he =>
    obtain rfl := Except.error.inj (Prod.mk.inj h).1
    refine ⟨outwardWithin_error _ _ [] d _ _ e' he, fun hc => ?_⟩
    obtain ⟨v, issue', hv⟩ := outward_succeeds hc ⟨s.id, s.nextSlot, []⟩
    rw [he] at hv
    cases hv
  · cases h

theorem neat_regular {d : Dict Value} (hd : Neat d) : (Value.map d).Regular := .map d hd.ordered hd.regular

theorem neat_plain {d : Dict Value} (hd : Neat d) : (Value.map d).holdsFunction = false := by
  rw [Value.holdsFunction, Value.membersHoldFunction_iff]
  exact hd.plain

theorem neat_find {d : Dict Value} (hd : Neat d) (key : String) :
    ((Dict.find? d key).getD .nil).Regular ∧ ((Dict.find? d key).getD .nil).holdsFunction = false := by
  cases h : Dict.find? d key with
  | none => exact ⟨.nil, rfl⟩
  | some v => exact ⟨hd.regular _ (Dict.mem_of_find h), hd.plain _ (Dict.mem_of_find h)⟩

theorem stands_shows {h : Heap} {a : Nat} {d : Dict Value} (hd : Neat d)
    (hbare : (h.table a).metatable = none) (hs : Stands h (.table a) (.map d)) : Shows h a (Dict.find? d) where
  bare := hbare
  entry := stands_get hs (Dict.ordered_nodup hd.ordered)
  keys k hk := by
    rw [holds_keys (stands_held hs), List.map_map] at hk
    obtain ⟨e, he, rfl⟩ := List.mem_map.mp hk
    refine ⟨e.1, ?_, rfl⟩
    rw [Dict.find_of_mem (Dict.ordered_nodup hd.ordered) (List.mem_of_mem_filter he)]
    rfl

namespace Bridge

section
variable {b : Bridge} {id : SessionId} {s : Session} (hs : b.find? id = some s)
include hs

theorem find_updated {s' : Session} (hid : s'.id = s.id) :
    (b.update id fun _ => s').find? id = some s' := by
  rw [find_update b id _ fun _ _ => hid.trans (mem_of_find hs).2, hs]
  rfl

theorem outwardAll_received (args : List Datum) :
    ∃ s₁, (b.outwardAll id args).2.find? id = some s₁ ∧ s₁.heap = s.heap ∧ s₁.state = s.state ∧
      Received s.heap args (b.outwardAll id args).1 := by
  induction args generalizing b s with
  | nil => exact ⟨s, hs, rfl, rfl, .nil⟩
  | cons d rest ih =>
    obtain ⟨hheap, hstate⟩ := s.outward_same d
    have hid : (s.outward d).2.id = s.id := by
      unfold Session.outward
      split <;> rfl
    have hfound := find_updated hs hid
    simp only [outwardAll, hs]
    rcases hout : s.outward d with ⟨e | v, s'⟩
    · rw [hout] at hfound hheap hstate
      obtain ⟨hkind, hstuck⟩ := Session.outward_error hout
      exact ⟨s', hfound, hheap, hstate, hkind, d, List.mem_cons_self, hstuck⟩
    · rw [hout] at hfound hheap hstate
      obtain ⟨s₁, hs₁, hheap₁, hstate₁, hrest⟩ := ih hfound
      rw [hheap] at hrest
      dsimp only
      rcases hvs : (b.update id fun _ => s').outwardAll id rest with ⟨e | vs, b'⟩
      · rw [hvs] at hs₁ hrest
        obtain ⟨hkind, x, hx, hstuck⟩ := hrest
        exact ⟨s₁, hs₁, hheap₁.trans hheap, hstate₁.trans hstate, hkind, x, List.mem_cons_of_mem _ hx, hstuck⟩
      · rw [hvs] at hs₁ hrest
        exact ⟨s₁, hs₁, hheap₁.trans hheap, hstate₁.trans hstate, .cons (Session.outward_unfolds hout) hrest⟩

theorem inward_kept (v : Value) :
    ∃ s', (b.inward id v).2.find? id = some s' ∧ s'.state = s.state := by
  simp only [Bridge.inward, hs]
  split
  · exact ⟨s, hs, rfl⟩
  · next d s' hv =>
    obtain ⟨h, rfl⟩ := inward_session hv
    exact ⟨_, find_updated hs rfl, rfl⟩

theorem inward_entered {v : Value} {d : Datum} {h : Heap}
    (hin : Crossing.inward s.id s.pins v s.heap = .ok (d, h)) :
    (b.inward id v).1 = .ok d ∧ (b.inward id v).2.find? id = some { s with heap := h } := by
  have hsession : s.inward v = .ok (d, { s with heap := h }) := by simp only [Session.inward, hin, Except.map]
  have hboth : b.inward id v = (.ok d, b.update id fun _ => { s with heap := h }) := by
    simp only [Bridge.inward, hs, hsession]
  rw [hboth]
  exact ⟨rfl, find_updated hs rfl⟩

theorem unpin_found (before : Bridge) :
    ∃ s', (b.unpinSince before).find? id = some s' ∧ s'.heap = s.heap ∧ s'.state = s.state := by
  rw [find_map (f := fun s => s.dropFrom (before.nextSlot s.id)) (fun _ => rfl)
    (unpinSince_sessions b before), hs]
  exact ⟨_, rfl, rfl, rfl⟩

theorem stateOf_found : b.stateOf id = .ok s.state := by simp only [stateOf, hs]

theorem standard_kept (hneat : Neat s.state) (f : StandardFn) {vs : List Value}
    (hvs : ∀ v ∈ vs, v.Regular) :
    ∃ s', (b.standard id f vs).2.find? id = some s' ∧ s'.heap = s.heap ∧ Neat s'.state ∧
      Dict.find? s'.state = Kept.serve (Dict.find? s.state) f vs ∧
      ((b.standard id f vs).1 = .ok .nil ∨ s'.state = s.state) := by
  have hstate : ∀ d, (b.setState id d).find? id = some { s with state := d } := by
    intro d
    rw [setState, find_update b id (fun s => { s with state := d }) fun _ hid => hid, hs]
    rfl
  cases f with
  | stateSet =>
    obtain ⟨hok, herror⟩ := set_stores hneat hvs
    cases hset : State.set s.state vs with
    | error e =>
      have hcall : b.standard id .stateSet vs = (.error e, b) := by
        simp only [standard, stateOf_found hs, hset]
      rw [hcall]
      exact ⟨s, hs, rfl, hneat, (herror e hset).symm, .inr rfl⟩
    | ok d =>
      obtain ⟨hd, hfind⟩ := hok d hset
      have hcall : b.standard id .stateSet vs = (.ok .nil, b.setState id d) := by
        simp only [standard, stateOf_found hs, hset]
      rw [hcall]
      exact ⟨_, hstate d, rfl, hd, hfind, .inl rfl⟩
  | stateClear =>
    have hcall : b.standard id .stateClear vs = (.ok .nil, b.setState id []) := by
      simp only [standard, stateOf_found hs]
    rw [hcall]
    exact ⟨_, hstate [], rfl, neat_nil, rfl, .inl rfl⟩
  | stateGet =>
    simp only [standard, stateOf_found hs]
    exact ⟨s, hs, rfl, hneat, rfl, .inr rfl⟩
  | stateAll =>
    simp only [standard, stateOf_found hs]
    exact ⟨s, hs, rfl, hneat, rfl, .inr rfl⟩
  | emitter node sink =>
    refine ⟨s, ?_, rfl, hneat, rfl, .inr rfl⟩
    simp only [standard]
    split
    · exact hs
    · exact emit_found hs sink _
  | _ => exact ⟨s, hs, rfl, hneat, rfl, .inr rfl⟩

end

section
variable {b b₁ b₂ : Bridge} {id : SessionId} {f : StandardFn} {args : List Datum} {vs : List Value}

theorem callStandard_refused (hargs : b.outwardAll id args = (.ok vs, b₁)) {e : ScriptError}
    (h : b₁.standard id f vs = (.error e, b₂)) :
    b.callStandard id f args = (.error e, b₂.unpinSince b) := by
  simp only [callStandard, hargs, h]

theorem callStandard_answered (hargs : b.outwardAll id args = (.ok vs, b₁)) {v : Value}
    (h : b₁.standard id f vs = (.ok v, b₂)) :
    b.callStandard id f args = ((b₂.inward id v).1, (b₂.inward id v).2.unpinSince b) := by
  simp only [callStandard, hargs, h]

/-- A value that goes in is the answer, and the heap is that with its tables. -/
theorem callStandard_entered (hargs : b.outwardAll id args = (.ok vs, b₁)) {v : Value}
    (h : b₁.standard id f vs = (.ok v, b₂)) {s : Session} (hs : b₂.find? id = some s) {d : Datum}
    {heap : Heap} (hin : Crossing.inward s.id s.pins v s.heap = .ok (d, heap)) :
    ∃ s', (b.callStandard id f args).1 = .ok d ∧ (b.callStandard id f args).2.find? id = some s' ∧
      s'.heap = heap ∧ s'.state = s.state := by
  obtain ⟨hd, hfound⟩ := inward_entered hs hin
  obtain ⟨s', hs', hheap, hstate⟩ := unpin_found hfound b
  rw [callStandard_answered hargs h]
  exact ⟨s', hd, hs', hheap, hstate⟩

theorem callStandard_found (hargs : b.outwardAll id args = (.ok vs, b₁)) {s : Session}
    (hs : (b₁.standard id f vs).2.find? id = some s) :
    ∃ s', (b.callStandard id f args).2.find? id = some s' ∧ s'.state = s.state := by
  rcases hstandard : b₁.standard id f vs with ⟨e | v, b₂⟩
  · rw [hstandard] at hs
    obtain ⟨s', hs', -, hstate⟩ := unpin_found hs b
    rw [callStandard_refused hargs hstandard]
    exact ⟨s', hs', hstate⟩
  · rw [hstandard] at hs
    obtain ⟨s₂, hs₂, hstate₂⟩ := inward_kept hs v
    obtain ⟨s', hs', -, hstate⟩ := unpin_found hs₂ b
    rw [callStandard_answered hargs hstandard]
    exact ⟨s', hs', hstate.trans hstate₂⟩

theorem callStandard_nil (hargs : b.outwardAll id args = (.ok vs, b₁)) {s : Session}
    (hs : (b₁.standard id f vs).2.find? id = some s) (hok : (b₁.standard id f vs).1 = .ok .nil) :
    (b.callStandard id f args).1 = .ok .nil := by
  have hstandard : b₁.standard id f vs = (.ok .nil, (b₁.standard id f vs).2) := Prod.ext hok rfl
  have hin : Crossing.inward s.id s.pins .nil s.heap = .ok (.nil, s.heap) := rfl
  obtain ⟨-, hcall, -⟩ := callStandard_entered hargs hstandard hs hin
  exact hcall

/-- A value that can go in is answered with what it goes in as, or there is no memory left for it. -/
theorem callStandard_built (hargs : b.outwardAll id args = (.ok vs, b₁)) {v : Value}
    (h : b₁.standard id f vs = (.ok v, b₂)) {s : Session} (hs : b₂.find? id = some s)
    {P : Heap → Datum → Value → Prop} (hv : Builds s.id s.pins P v) :
    ∃ s', (b.callStandard id f args).2.find? id = some s' ∧ s'.state = s.state ∧
      s'.heap.allocator = s.heap.allocator ∧
      ((¬ s.heap.Unlimited ∧ (b.callStandard id f args).1 = .error .outOfMemory) ∨
        ∃ d ts n, (b.callStandard id f args).1 = .ok d ∧ s'.heap = (grown s.heap ts).spending n ∧
          ∀ h', Carries h' s.heap.tables.size ts → P h' d v) := by
  obtain ⟨hlimit, hin⟩ | ⟨d, ts, n, hin, -, hbuilt⟩ := builds_anywhere s.id s.pins hv s.heap
  · have hrefused : b₂.inward id v = (.error .outOfMemory, b₂) := by
      simp only [Bridge.inward, hs, Session.inward, hin, Except.map]
    obtain ⟨s', hs', hheap, hstate⟩ := unpin_found hs b
    rw [callStandard_answered hargs h, hrefused]
    exact ⟨s', hs', hstate, by rw [hheap], .inl ⟨hlimit, rfl⟩⟩
  · obtain ⟨s', hcall, hs', hheap, hstate⟩ := callStandard_entered hargs h hs hin
    exact ⟨s', hs', hstate, by rw [hheap]; rfl, .inr ⟨d, ts, n, hcall, hheap, hbuilt⟩⟩

/-- Asking for one name gives what stands for the value that is kept under it. -/
theorem callStandard_one {key : String} {rest : List Value}
    (hargs : b.outwardAll id args = (.ok (.string key :: rest), b₁)) {s : Session}
    (hs : b₁.find? id = some s) (hneat : Neat s.state) :
    ∃ s', (b.callStandard id .stateGet args).2.find? id = some s' ∧
      s'.heap.allocator = s.heap.allocator ∧
      ((¬ s.heap.Unlimited ∧ (b.callStandard id .stateGet args).1 = .error .outOfMemory) ∨
        ∃ d ts n, (b.callStandard id .stateGet args).1 = .ok d ∧
          s'.heap = (grown s.heap ts).spending n ∧
          Stands s'.heap d ((Dict.find? s.state key).getD .nil)) := by
  have hstandard : b₁.standard id .stateGet (.string key :: rest) =
      (.ok ((Dict.find? s.state key).getD .nil), b₁) := by
    simp only [standard, stateOf_found hs]
    rfl
  obtain ⟨hregular, hplain⟩ := neat_find hneat key
  obtain ⟨s', hs', -, hallocator, hrefused | ⟨d, ts, n, hcall, hheap, hstands⟩⟩ :=
    callStandard_built hargs hstandard hs (regular_builds s.id s.pins hregular hplain)
  · exact ⟨s', hs', hallocator, .inl hrefused⟩
  · exact ⟨s', hs', hallocator,
      .inr ⟨d, ts, n, hcall, hheap, hheap ▸ hstands _ (carries_spending s.heap ts n)⟩⟩

/-- Asking for everything gives a table that shows the map, also when more tables are made. -/
theorem callStandard_all (hargs : b.outwardAll id args = (.ok vs, b₁)) {s : Session}
    (hs : b₁.find? id = some s) (hneat : Neat s.state) :
    ∃ s', (b.callStandard id .stateAll args).2.find? id = some s' ∧ s'.state = s.state ∧
      s'.heap.allocator = s.heap.allocator ∧
      ((¬ s.heap.Unlimited ∧ (b.callStandard id .stateAll args).1 = .error .outOfMemory) ∨
        ∃ a ts n, (b.callStandard id .stateAll args).1 = .ok (.table a) ∧
          s'.heap = (grown s.heap ts).spending n ∧
          ∀ h, Carries h s.heap.tables.size ts → Shows h a (Dict.find? s.state)) := by
  have hstandard : b₁.standard id .stateAll vs = (.ok (.map s.state), b₁) := by
    simp only [standard, stateOf_found hs]
  obtain ⟨s', hs', hstate, hallocator, hrefused | ⟨d, ts, n, hcall, hheap, hstands⟩⟩ :=
    callStandard_built hargs hstandard hs (map_stands s.id s.pins (neat_regular hneat) (neat_plain hneat))
  · exact ⟨s', hs', hstate, hallocator, .inl hrefused⟩
  · obtain ⟨a, rfl, -, -⟩ := hstands _ (carries_spending s.heap ts n)
    refine ⟨s', hs', hstate, hallocator, .inr ⟨a, ts, n, hcall, hheap, fun h hc => ?_⟩⟩
    obtain ⟨a', ha, hbare, hmap⟩ := hstands h hc
    obtain rfl := Datum.table.inj ha
    exact stands_shows hneat hbare hmap

/-- The answer is by the map that the call finds. -/
theorem callStandard_serves (hargs : b.outwardAll id args = (.ok vs, b₁)) {s : Session}
    (hs : b₁.find? id = some s) (hneat : Neat s.state) (hvs : ∀ v ∈ vs, v.Regular) :
    ∃ s', (b.callStandard id f args).2.find? id = some s' ∧
      Served (Dict.find? s.state) s'.heap f vs (b.callStandard id f args).1 := by
  obtain ⟨s₂, hs₂, -, -, -, -⟩ := standard_kept hs hneat f hvs
  obtain ⟨s', hs', -⟩ := callStandard_found hargs hs₂
  have hrefused : ∀ e, (b₁.standard id f vs).1 = .error e →
      Fails e.kind (b.callStandard id f args).1 := by
    intro e he
    have hstandard : b₁.standard id f vs = (.error e, (b₁.standard id f vs).2) := Prod.ext he rfl
    exact ⟨e, by rw [callStandard_refused hargs hstandard], rfl⟩
  have hnil := callStandard_nil hargs hs₂
  have hstring : (∃ key rest, vs = .string key :: rest) ∨ ∀ key rest, vs ≠ .string key :: rest := by
    by_cases h : ∃ key rest, vs = .string key :: rest
    · exact .inl h
    · exact .inr fun key rest heq => h ⟨key, rest, heq⟩
  cases f with
  | stateGet =>
    rcases hstring with ⟨key, rest, rfl⟩ | hother
    · obtain ⟨s', hs', hallocator, ⟨hlimit, hcall⟩ | ⟨d, ts, n, hcall, -, hstands⟩⟩ :=
        callStandard_one hargs hs hneat
      · exact ⟨s', hs', .inl ⟨fun hfree => hlimit (hallocator.symm.trans hfree), hcall⟩⟩
      · exact ⟨s', hs', .inr ⟨d, hcall, hstands⟩⟩
    · refine ⟨s', hs', served_other (.inl rfl) hother
        (hrefused (.runtime "state.get: key must be a string") ?_)⟩
      simp only [standard, stateOf_found hs, State.get_other _ hother]
  | stateSet =>
    rcases hstring with ⟨key, rest, rfl⟩ | hother
    · refine ⟨s', hs', ?_⟩
      simp only [Served]
      have hset := State.set_string s.state key rest
      split
      · next hf =>
        rw [if_pos hf] at hset
        exact hrefused (State.holdsFunction key) (by simp only [standard, stateOf_found hs, hset])
      · next hf =>
        obtain ⟨d, hd⟩ : ∃ d, State.set s.state (.string key :: rest) = .ok d := by
          rw [hset, if_neg hf]
          split <;> exact ⟨_, rfl⟩
        exact hnil (by simp only [standard, stateOf_found hs, hd])
    · refine ⟨s', hs', served_other (.inr rfl) hother
        (hrefused (.runtime "state.set: key must be a string") ?_)⟩
      simp only [standard, stateOf_found hs, State.set_other _ hother]
  | stateAll =>
    obtain ⟨s', hs', -, hallocator, ⟨hlimit, hcall⟩ | ⟨a, ts, n, hcall, hheap, hshows⟩⟩ :=
      callStandard_all hargs hs hneat
    · exact ⟨s', hs', .inl ⟨fun hfree => hlimit (hallocator.symm.trans hfree), hcall⟩⟩
    · exact ⟨s', hs', .inr ⟨.table a, hcall, a, rfl, hheap ▸ hshows _ (carries_spending s.heap ts n)⟩⟩
  | stateClear => exact ⟨s', hs', hnil (by simp only [standard, stateOf_found hs])⟩
  | _ => exact ⟨s', hs', trivial⟩

theorem callStandard_refines {s : Session} (hs : b.find? id = some s) (hneat : Neat s.state)
    (f : StandardFn) (args : List Datum) :
    ∃ s', (b.callStandard id f args).2.find? id = some s' ∧ (b.standardCall id f args).Refines s s' := by
  obtain ⟨s₁, hs₁, hheap₁, hstate₁, hreceived⟩ := outwardAll_received hs args
  rcases hargs : b.outwardAll id args with ⟨e | vs, b₁⟩
  · rw [hargs] at hs₁ hreceived
    obtain ⟨s', hs', -, hstate⟩ := unpin_found hs₁ b
    have hcall : b.callStandard id f args = (.error e, b₁.unpinSince b) := by
      simp only [callStandard, hargs]
    have hown : b.standardCall id f args = ⟨.standard f, args, .error e, .error e⟩ := by
      simp only [standardCall, hargs, hcall]
    have hsame := hstate.trans hstate₁
    rw [hcall, hown]
    refine ⟨s', hs', hreceived, fun _ h => (by cases h; rfl), fun _ _ _ h => (by cases h), ?_,
      fun _ _ => hsame, ?_⟩
    · rw [hsame]
      rfl
    · rwa [hsame]
  · rw [hargs] at hs₁ hreceived
    have hvs := received_regular hreceived
    obtain ⟨s₂, hs₂, -, hneat₂, hserve, hkept⟩ := standard_kept hs₁ (hstate₁ ▸ hneat) f hvs
    obtain ⟨s', hs', hstate⟩ := callStandard_found hargs hs₂
    obtain ⟨s'', hs'', hserved⟩ := callStandard_serves hargs hs₁ (hstate₁ ▸ hneat) hvs
    obtain rfl := Option.some.inj (hs'.symm.trans hs'')
    have hown : b.standardCall id f args = ⟨.standard f, args, .ok vs, (b.callStandard id f args).1⟩ := by
      simp only [standardCall, hargs]
    rw [hown]
    refine ⟨s', hs', hreceived, fun _ h => (by cases h), ?_, ?_, ?_, hstate ▸ hneat₂⟩
    · intro g ws hg hws
      obtain rfl := HostFn.standard.inj hg
      obtain rfl := Except.ok.inj hws
      rwa [hstate₁] at hserved
    · rw [hstate, hserve, hstate₁]
      rfl
    · intro e he
      rcases hkept with hnil | hsame
      · rw [callStandard_nil hargs hs₂ hnil] at he
        cases he
      · rw [hstate, hsame, hstate₁]

end

end Bridge

end ScriptHost
