import ScriptHost.Proofs.Bridge.Functions

/-!
# Runs are accounted for

Every way to run a script does to the bridge what the calls in its account say, and every host function in
the account is one that the bridge held or that the host sent since.
-/

set_option autoImplicit false

namespace ScriptHost.Bridge
open Lua

/-- What such calls do to a bridge that scripts find only such host functions in. -/
structure Accounted (K : HostFn → Prop) (calls : List HostCall) (b b' : Bridge) : Prop where
  only : b'.Only K
  sink : b'.sink = b.sink
  emitted : b'.emitted = (calls.filterMap (HostCall.emission? b.sink)).reverse ++ b.emitted
  each : ∀ c ∈ calls, K c.function ∧ c.Faithful

section
variable {K : HostFn → Prop} {a b c : Bridge} {calls more : List HostCall}

theorem quiet (hb : b.Only K) (hsink : b.sink = a.sink) (hemitted : b.emitted = a.emitted) :
    Accounted K [] a b := ⟨hb, hsink, by simpa using hemitted, by simp⟩

theorem accounted_trans (h : Accounted K calls a b) (h' : Accounted K more b c) :
    Accounted K (calls ++ more) a c where
  only := h'.only
  sink := h'.sink.trans h.sink
  emitted := by
    rw [h'.emitted, h.sink, h.emitted, List.filterMap_append, List.reverse_append, List.append_assoc]
  each call hcall := (List.mem_append.mp hcall).elim (h.each call) (h'.each call)

theorem accounted_after (h : Accounted K [] a b) (h' : Accounted K calls b c) : Accounted K calls a c :=
  accounted_trans h h'

theorem accounted_before (h : Accounted K calls a b) (h' : Accounted K [] b c) : Accounted K calls a c := by
  simpa using accounted_trans h h'

end

section
variable {K : HostFn → Prop} {b : Bridge} (hb : b.Only K)
include hb

theorem quiet_refl : Accounted K [] b b := quiet hb rfl rfl

theorem quiet_update (id : SessionId) {f : Session → Session}
    (hf : ∀ s ∈ b.sessions, s.id = id → (f s).Only K) : Accounted K [] b (b.update id f) :=
  quiet (only_update hb id hf) rfl rfl

theorem quiet_putHeap (id : SessionId) {h : Heap} (ho : h.Only K) : Accounted K [] b (b.putHeap id h) :=
  quiet_update hb id fun s hs _ => ⟨ho, (hb s hs).state⟩

theorem quiet_takeHeap (id : SessionId) :
    (b.takeHeap id).1.Only K ∧ Accounted K [] b (b.takeHeap id).2 := by
  unfold takeHeap
  split
  · next s hs => exact ⟨(only_found hb hs).heap, quiet_putHeap hb id (Heap.only_default K)⟩
  · exact ⟨Heap.only_default K, quiet_refl hb⟩

theorem quiet_enterRun (id : SessionId) : Accounted K [] b (b.enterRun id) :=
  quiet_update hb id fun s hs _ => Session.only_same (hb s hs) rfl rfl

theorem quiet_leaveRun (id : SessionId) : Accounted K [] b (b.leaveRun id) := by
  refine quiet (only_map hb (leaveRun_sublist b id).subset (fun s => ?_) fun s => ?_) rfl rfl
  · unfold less
    split <;> rfl
  · unfold less
    split <;> rfl

theorem quiet_unpinSince (before : Bridge) : Accounted K [] b (b.unpinSince before) := by
  have hsub : (b.unpinSince before).sessions ⊆
      b.sessions.map fun s => s.dropFrom (before.nextSlot s.id) := by
    rw [unpinSince_sessions]
    exact List.Subset.refl _
  exact quiet (only_map hb hsub (fun _ => rfl) fun _ => rfl) rfl rfl

theorem quiet_found {id : SessionId} {s s' : Session} (hs' : s'.Only K) (_ : b.find? id = some s) :
    Accounted K [] b (b.update id fun _ => s') := quiet_update hb id fun _ _ _ => hs'

/-- A datum that crosses becomes a value without host functions, and nil only if it is nil. -/
theorem quiet_outward (id : SessionId) {s : Session} (hs : b.find? id = some s) (d : Datum) :
    Accounted K [] b (b.update id fun _ => (s.outward d).2) ∧
      ∀ v, (s.outward d).1 = .ok v → v.Hostless ∧ v.isNil = d.isNil := by
  obtain ⟨hheap, hstate⟩ := s.outward_same d
  refine ⟨quiet_found hb (Session.only_same (only_found hb hs) hheap hstate) hs, fun v hv => ?_⟩
  have hout : s.outward d = (.ok v, (s.outward d).2) := by rw [← hv]
  obtain ⟨issued, hu⟩ := Session.outward_unfolds hout
  exact ⟨Value.unfolds_hostless hu, Crossing.unfolds_isNil hu⟩

theorem quiet_outwardOne (id : SessionId) (d : Datum) :
    Accounted K [] b (b.outward id d).2 ∧ OnlyGives (fun _ => False) (b.outward id d).1 := by
  unfold Bridge.outward
  split
  · exact ⟨quiet_refl hb, onlyGives_error _ _⟩
  · next s hs =>
    obtain ⟨hquiet, hv⟩ := quiet_outward hb id hs d
    exact ⟨hquiet, fun v hok => (hv v hok).1⟩

theorem quiet_outwardAll (id : SessionId) (ds : List Datum) :
    Accounted K [] b (b.outwardAll id ds).2 ∧ ∀ vs, (b.outwardAll id ds).1 = .ok vs →
      (∀ v ∈ vs, v.Hostless) ∧ List.Forall₂ (fun d v => Value.isNil v = d.isNil) ds vs := by
  induction ds generalizing b with
  | nil =>
    refine ⟨quiet_refl hb, fun vs hvs => ?_⟩
    obtain rfl := Except.ok.inj hvs
    exact ⟨by simp, .nil⟩
  | cons d rest ih =>
    unfold outwardAll
    split
    · exact ⟨quiet_refl hb, fun vs hvs => by cases hvs⟩
    · next s hs =>
      obtain ⟨hd, hv⟩ := quiet_outward hb id hs d
      split
      · next e s' he =>
        rw [he] at hd
        exact ⟨hd, fun vs hvs => by cases hvs⟩
      · next v s' hout =>
        rw [hout] at hd hv
        obtain ⟨hhostless, hnil⟩ := hv v rfl
        obtain ⟨hrest, hvs⟩ := ih hd.only
        split
        · next e b' he =>
          rw [he] at hrest
          exact ⟨accounted_after hd hrest, fun vs hvs => by cases hvs⟩
        · next ws b' hws =>
          rw [hws] at hrest hvs
          refine ⟨accounted_after hd hrest, fun vs hall => ?_⟩
          obtain rfl := Except.ok.inj hall
          obtain ⟨hwhost, hwnil⟩ := hvs ws rfl
          exact ⟨List.forall_mem_cons.mpr ⟨hhostless, hwhost⟩, .cons hnil hwnil⟩

theorem quiet_inward (id : SessionId) {v : Value} (hv : v.Only K) : Accounted K [] b (b.inward id v).2 := by
  unfold Bridge.inward
  split
  · exact quiet_refl hb
  · next s hs =>
    split
    · exact quiet_refl hb
    · next d s' hin => exact quiet_found hb (Session.inward_only (only_found hb hs) hv hin) hs

theorem quiet_inwardAll (id : SessionId) {vs : List Value} (hvs : ∀ v ∈ vs, v.Only K) :
    Accounted K [] b (b.inwardAll id vs).2 := by
  unfold Bridge.inwardAll
  split
  · exact quiet_refl hb
  · next s hs =>
    split
    · exact quiet_refl hb
    · next ds s' hin => exact quiet_found hb (Session.inwardAll_only (only_found hb hs) hvs hin) hs

theorem quiet_release : Accounted K [] b b.release.2 := by
  unfold release
  split
  · exact quiet_refl hb
  · next s hs =>
    refine quiet (fun t ht => ?_) rfl rfl
    rcases List.mem_append.mp ht with hopen | hlingers
    · obtain rfl : t = s.release.2 := by simpa using hopen
      exact Session.only_same (only_open hb hs) rfl rfl
    · exact hb t (List.mem_append_right _ hlingers)

theorem quiet_close : Accounted K [] b b.close.2 := by
  unfold close
  split
  · exact quiet_refl hb
  · split
    · exact quiet_refl hb
    · next s hs =>
      refine quiet (fun t ht => ?_) rfl rfl
      have hlingers : t ∈ (if s.runs = 0 then b.lingering else s.release.2 :: b.lingering) := by
        simpa [sessions] using ht
      split at hlingers
      · exact hb t (List.mem_append_right _ hlingers)
      · rcases List.mem_cons.mp hlingers with rfl | hlingers
        · exact Session.only_same (only_open hb hs) rfl rfl
        · exact hb t (List.mem_append_right _ hlingers)

theorem quiet_reset : Accounted K [] b b.reset.2 := by
  have hclose := quiet_close hb
  unfold reset
  split
  · next e b₁ hc =>
    rw [hc] at hclose
    exact hclose
  · next b₁ hc =>
    rw [hc] at hclose
    refine accounted_after hclose (quiet (fun t ht => ?_) rfl rfl)
    rcases List.mem_append.mp ht with hopen | hlingers
    · obtain rfl : t = Session.start ⟨b₁.id, b₁.openings⟩ b₁.config := by simpa [reopen] using hopen
      exact Session.only_start K _ _
    · exact hclose.only t (List.mem_append_right _ hlingers)

theorem stateOf_only {id : SessionId} {d : Dict Value} (hd : b.stateOf id = .ok d) :
    ∀ e ∈ d, e.2.Only K := by
  unfold stateOf at hd
  split at hd
  · next s hs => exact Except.ok.inj hd ▸ (only_found hb hs).state
  · cases hd

theorem quiet_setState (id : SessionId) {d : Dict Value} (hd : ∀ e ∈ d, e.2.Only K) :
    Accounted K [] b (b.setState id d) :=
  quiet_update hb id fun s hs _ => ⟨(hb s hs).heap, hd⟩

/-- No standard function but an emitter touches a sink, and none brings the script a host function. -/
theorem quiet_standard (id : SessionId) {f : StandardFn} (hf : ∀ node sink, f ≠ .emitter node sink)
    {args : List Value} (hargs : ∀ v ∈ args, v.Only K) :
    Accounted K [] b (b.standard id f args).2 ∧ OnlyGives K (b.standard id f args).1 := by
  cases f with
  | log => exact ⟨quiet hb rfl rfl, onlyGives_ok .nil⟩
  | componentTags => exact ⟨quiet_refl hb, onlyGives_ok (Value.strings_only _)⟩
  | componentInfo => exact ⟨quiet_refl hb, componentInfo_only⟩
  | deepCopy => exact ⟨quiet_refl hb, deepCopy_only _⟩
  | merge => exact ⟨quiet_refl hb, merge_only hargs⟩
  | format => exact ⟨quiet_refl hb, format_only⟩
  | component tag => exact ⟨quiet_refl hb, build_only hargs⟩
  | emitter node sink => exact absurd rfl (hf node sink)
  | stateGet =>
    simp only [standard]
    split
    · exact ⟨quiet_refl hb, onlyGives_error K _⟩
    · next d hd => exact ⟨quiet_refl hb, stateGet_only (stateOf_only hb hd)⟩
  | stateSet =>
    simp only [standard]
    split
    · exact ⟨quiet_refl hb, onlyGives_error K _⟩
    · next d hd =>
      split
      · exact ⟨quiet_refl hb, onlyGives_error K _⟩
      · next d' hd' =>
        exact ⟨quiet_setState hb id (stateSet_only (stateOf_only hb hd) hargs hd'), onlyGives_ok .nil⟩
  | stateAll =>
    simp only [standard]
    split
    · exact ⟨quiet_refl hb, onlyGives_error K _⟩
    · next d hd => exact ⟨quiet_refl hb, onlyGives_ok (.map d (stateOf_only hb hd))⟩
  | stateClear =>
    simp only [standard]
    split
    · exact ⟨quiet_refl hb, onlyGives_error K _⟩
    · exact ⟨quiet_setState hb id (by simp), onlyGives_ok .nil⟩

end

theorem emission_ok {node : ScriptNode} {args : List Value} {e : Emission}
    (h : emission node args = .ok e) :
    ∃ signal rest, args = .string signal :: rest ∧ signal ∈ node.emitSignals ∧
      e = ⟨signal, HostCall.payload rest⟩ := by
  unfold emission at h
  split at h
  · next signal rest =>
    split at h
    · cases h
    · next hcheck =>
      refine ⟨signal, rest, rfl, ?_, (Except.ok.inj h).symm⟩
      unfold ScriptNode.checkEmit at hcheck
      split at hcheck
      · next hdeclares => simpa [ScriptNode.declaresEmit] using hdeclares
      · cases hcheck
  · cases h

theorem outward_there {b : Bridge} {id : SessionId} {s : Session} (hs : b.find? id = some s) (d : Datum) :
    ((b.update id fun _ => (s.outward d).2).find? id).isSome = true := by
  have hid : (s.outward d).2.id = id := by
    rw [(mem_of_find hs).2.symm]
    unfold Session.outward
    split <;> rfl
  rw [find_update b id _ fun _ _ => hid, hs]
  rfl

theorem outwardAll_there (b : Bridge) (id : SessionId) (ds : List Datum)
    (h : (b.find? id).isSome = true) : ((b.outwardAll id ds).2.find? id).isSome = true := by
  induction ds generalizing b with
  | nil => exact h
  | cons d rest ih =>
    obtain ⟨s, hs⟩ := Option.isSome_iff_exists.mp h
    have hthere := outward_there hs d
    simp only [outwardAll, hs]
    split
    · next e s' he =>
      rw [he] at hthere
      exact hthere
    · next v s' hv =>
      rw [hv] at hthere
      have hrest := ih _ hthere
      split
      · next e b' he =>
        rw [he] at hrest
        exact hrest
      · next vs b' hvs =>
        rw [hvs] at hrest
        exact hrest

/-- Data cross only in a session that is there, and it is there afterwards. -/
theorem outwardAll_found {b b' : Bridge} {id : SessionId} {ds : List Datum} {v : Value} {vs : List Value}
    (h : b.outwardAll id ds = (.ok (v :: vs), b')) : ∃ s, b'.find? id = some s := by
  have hthere : (b.find? id).isSome = true := by
    cases ds with
    | nil => cases h
    | cons d rest =>
      cases hs : b.find? id with
      | none => simp [outwardAll, hs] at h
      | some s => rfl
  have hafter := outwardAll_there b id ds hthere
  rw [h] at hafter
  exact Option.isSome_iff_exists.mp hafter

section
variable {K : HostFn → Prop}

/-- A call that failed, or that is none of an emitter, adds nothing to any sink. -/
theorem accounted_plain {a b : Bridge} {calls : List HostCall} (h : Accounted K calls a b) {c : HostCall}
    (hc : K c.function) (hplain : ∀ node sink d, c.function = .standard (.emitter node sink) →
      c.answer ≠ .ok d) (hnils : ∀ vs, c.received = .ok vs →
        List.Forall₂ (fun d v => Value.isNil v = d.isNil) c.given vs) : Accounted K (c :: calls) a b where
  only := h.only
  sink := h.sink
  emitted := by
    have hnone : c.emission? a.sink = none := by
      unfold HostCall.emission?
      split
      · next node target signal rest d hfunction _ hanswer =>
        exact absurd hanswer (hplain node target d hfunction)
      · rfl
    rw [List.filterMap_cons_none hnone, h.emitted]
  each := by
    refine List.forall_mem_cons.mpr ⟨⟨hc, hnils, fun node sink d hfunction hanswer => ?_⟩, h.each⟩
    exact absurd hanswer (hplain node sink d hfunction)

/-- In the end the functions that crossed for a call are unpinned. -/
theorem accounted_settled {a b : Bridge} {calls : List HostCall} (h : Accounted K calls a b) {c : HostCall}
    (hc : K c.function) (hplain : ∀ node sink d, c.function = .standard (.emitter node sink) →
      c.answer ≠ .ok d) (hnils : ∀ vs, c.received = .ok vs →
        List.Forall₂ (fun d v => Value.isNil v = d.isNil) c.given vs) (before : Bridge) :
    Accounted K (c :: calls) a (b.unpinSince before) :=
  accounted_plain (accounted_before h (quiet_unpinSince h.only before)) hc hplain hnils

theorem emit_accounted {b : Bridge} (hb : b.Only K) {node : ScriptNode} {sink : Nat}
    (hf : K (.standard (.emitter node sink))) {args : List Datum} {signal : String} {rest : List Value}
    (hdeclared : signal ∈ node.emitSignals)
    (hnils : List.Forall₂ (fun d v => Value.isNil v = d.isNil) args (.string signal :: rest)) (d : Datum) :
    Accounted K [⟨.standard (.emitter node sink), args, .ok (.string signal :: rest), .ok d⟩] b
      (b.emit sink ⟨signal, HostCall.payload rest⟩) := by
  have hcall : K (.standard (.emitter node sink)) ∧ HostCall.Faithful
      ⟨.standard (.emitter node sink), args, .ok (.string signal :: rest), .ok d⟩ := by
    refine ⟨hf, fun vs hvs => Except.ok.inj hvs ▸ hnils, fun node' sink' d' hemitter _ => ?_⟩
    simp only [HostFn.standard.injEq, StandardFn.emitter.injEq] at hemitter
    exact ⟨signal, rest, rfl, hemitter.1 ▸ hdeclared⟩
  unfold emit
  by_cases hsink : b.sink = sink
  · rw [if_pos hsink]
    exact ⟨hb, rfl, by simp [HostCall.emission?, hsink], by simpa using hcall⟩
  · rw [if_neg hsink]
    exact ⟨hb, rfl, by simp [HostCall.emission?, Ne.symm hsink], by simpa using hcall⟩

theorem emit_found {b : Bridge} {id : SessionId} {s : Session} (hs : b.find? id = some s) (sink : Nat)
    (e : Emission) : (b.emit sink e).find? id = some s := by
  unfold emit
  split <;> exact hs

theorem emitter_accounted {b : Bridge} (hb : b.Only K) (id : SessionId) {node : ScriptNode} {sink : Nat}
    (hf : K (.standard (.emitter node sink))) (args : List Datum) :
    Accounted K [b.standardCall id (.emitter node sink) args] b
      (b.callStandard id (.emitter node sink) args).2 := by
  obtain ⟨hargs, hvs⟩ := quiet_outwardAll hb id args
  simp only [standardCall, callStandard]
  rcases hreceived : b.outwardAll id args with ⟨e | vs, b₁⟩
  · rw [hreceived] at hargs
    exact accounted_settled hargs hf (fun _ _ _ _ h => by cases h) (fun _ hok => by cases hok) b
  · rw [hreceived] at hargs hvs
    have hnils : ∀ ws, Except.ok (ε := ScriptError) vs = .ok ws →
        List.Forall₂ (fun d v => Value.isNil v = d.isNil) args ws :=
      fun ws hws => Except.ok.inj hws ▸ (hvs vs rfl).2
    simp only [standard]
    cases hemission : emission node vs with
    | error e => exact accounted_settled hargs hf (fun _ _ _ _ h => by cases h) hnils b
    | ok e =>
      obtain ⟨signal, rest, rfl, hdeclared, rfl⟩ := emission_ok hemission
      obtain ⟨s, hs⟩ := outwardAll_found hreceived
      have hthere := emit_found hs sink ⟨signal, HostCall.payload rest⟩
      -- the session is still there to take the nil, so nothing fails after the emission
      have hnil : (b₁.emit sink ⟨signal, HostCall.payload rest⟩).inward id .nil =
          (.ok .nil, (b₁.emit sink ⟨signal, HostCall.payload rest⟩).update id fun _ => s) := by
        simp only [Bridge.inward, hthere]
        rfl
      have hemit := accounted_after hargs
        (emit_accounted hargs.only hf hdeclared (hvs _ rfl).2 .nil)
      have hback := accounted_before hemit (quiet_found hemit.only (only_found hemit.only hthere) hthere)
      simp only [hnil]
      exact accounted_before hback (quiet_unpinSince hback.only b)

/-- Any other standard function adds nothing to a sink. -/
theorem standard_accounted {b : Bridge} (hb : b.Only K) (id : SessionId) {f : StandardFn}
    (hf : K (.standard f)) (hplain : ∀ node sink, f ≠ .emitter node sink) (args : List Datum) :
    Accounted K [b.standardCall id f args] b (b.callStandard id f args).2 := by
  obtain ⟨hargs, hvs⟩ := quiet_outwardAll hb id args
  have hsettled : ∀ {c : Bridge} {r : Except ScriptError Datum}, Accounted K [] b c →
      Accounted K [⟨.standard f, args, (b.outwardAll id args).1, r⟩] b (c.unpinSince b) := by
    intro c r hc
    refine accounted_settled hc hf (fun node sink _ heq => ?_) (fun vs hok => (hvs vs hok).2) b
    exact absurd (HostFn.standard.inj heq) (hplain node sink)
  simp only [standardCall, callStandard]
  rcases hreceived : b.outwardAll id args with ⟨e | vs, b₁⟩
  · rw [hreceived] at hargs hsettled
    exact hsettled hargs
  · rw [hreceived] at hargs hvs hsettled
    obtain ⟨hquiet, hgives⟩ := quiet_standard (b := b₁) hargs.only id hplain fun v hv =>
      Value.hostless_only ((hvs vs rfl).1 v hv)
    dsimp only
    rcases hserved : b₁.standard id f vs with ⟨e | v, b₂⟩
    · rw [hserved] at hquiet
      exact hsettled (accounted_after hargs hquiet)
    · rw [hserved] at hquiet hgives
      exact hsettled (accounted_before (accounted_after hargs hquiet)
        (quiet_inward hquiet.only id (hgives v rfl)))

end

def Tells {α : Type} (K : HostFn → Prop) (fits : Except ScriptError α → Prop) (b : Bridge)
    (calls : List HostCall) (a : Answer α) : Prop :=
  ∀ r b', a = some (r, b') → Accounted K calls b b' ∧ fits r

def Anyhow {α : Type} (_ : Except ScriptError α) : Prop := True

def Plainly (r : Except ScriptError Value) : Prop := OnlyGives (fun _ => False) r

section
variable {α β : Type} {K : HostFn → Prop} {fits : Except ScriptError α → Prop} {b b' : Bridge}
  {calls more : List HostCall} {a : Answer α}

theorem tells_after (h : Accounted K calls b b') (ha : Tells K fits b' more a) :
    Tells K fits b (calls ++ more) a := by
  intro r b'' hr
  obtain ⟨haccounted, hfits⟩ := ha r b'' hr
  exact ⟨accounted_trans h haccounted, hfits⟩

theorem tells_map {c : Bridge} {fits' : Except ScriptError β → Prop}
    {f : Except ScriptError α → Except ScriptError β} {g : Bridge → Bridge} (ha : Tells K fits b calls a)
    (hf : ∀ r, fits r → fits' (f r))
    (hg : ∀ b', Accounted K calls b b' → Accounted K more c (g b')) :
    Tells K fits' c more (a.map fun r => (f r.1, g r.2)) := by
  intro r c' h
  obtain ⟨⟨x, b'⟩, hx, heq⟩ := Option.map_eq_some_iff.mp h
  obtain ⟨rfl, rfl⟩ := Prod.mk.inj heq
  obtain ⟨haccounted, hfits⟩ := ha x b' hx
  exact ⟨hg b' haccounted, hf x hfits⟩

end

/-- Scripts call what their heap holds, whatever their machine does. -/
theorem tends_only (K : HostFn → Prop) : Tends (Heap.Only K) K (Machine.Keeps (Heap.Only K)) := by
  have hP := Heap.only_lasting K
  have hturn : ∀ {m : Machine} {t : Turn}, m.Keeps (Heap.Only K) → m.advance = t →
      t.Keeps (Heap.Only K) := fun hm ht => ht ▸ Machine.advance_keeps hP hm
  exact {
    running := hturn
    finished := hturn
    failed := hturn
    host := by
      intro m f args h stack hm ha
      obtain ⟨⟨ho, hstack⟩, hf⟩ := hturn hm ha
      exact ⟨⟨ho, ho f hf⟩, fun h' ho' => ⟨fun d => Machine.resume_keeps [d] ho' hstack,
        fun e => Machine.interrupt_keeps hP e ho' hstack⟩⟩
    start := fun f args ho => Machine.start_keeps f args ho
    reading := fun name ho => Machine.reading_keeps hP name ho
    writing := fun name d ho => Machine.writing_keeps hP name d ho
    describing := fun d ho => Machine.describing_keeps d ho }

theorem request_sent {K : HostFn → Prop} {r : Request} (hr : r.Only K) : ∀ v ∈ r.values, v.Only K := by
  cases r with
  | callGlobal name args => exact hr
  | invoke handle args => exact hr
  | setGlobal name v => exact fun w hw => List.mem_singleton.mp hw ▸ hr
  | _ => exact fun v hv => absurd hv List.not_mem_nil

theorem only_matches {K : HostFn → Prop} {action : HostAction} (h : action.Only K) :
    HostAction.Matches (Request.Only K) (Value.Only K) (fun _ => Plainly) action action := by
  induction h with
  | done v hv => exact .done v hv
  | fail e => exact .fail e
  | panic message => exact .panic message
  | ask r next hr _ ih => exact .ask r next next hr ih

def accountWalk (K : HostFn → Prop) (host : Host) : Walk host where
  heap := Heap.Only K
  machine := Machine.Keeps (Heap.Only K)
  function := K
  sent := Value.Only K
  received := Value.Hostless
  may := Request.Only K
  gets _ := Plainly
  result := Plainly
  outer := Only K
  inner := Only K
  within _ := Only K
  turns _ := Accounted K
  asks := Accounted K
  brings _ calls b b' _ := Accounted K calls b b'
  tends := tends_only K
  outer_inner h := h
  inner_busy h _ := h
  inner_marked h _ := h
  inner_within h := h
  inner_kept h _ := h.only
  within_open h _ := h
  within_kept h _ := h.only
  within_entered h := (quiet_enterRun h _).only
  heap_open h hs := (only_open h hs).heap
  heap_taken id h := (quiet_takeHeap h id).1
  heap_load h hload := Heap.only_load h hload
  sent_asked := request_sent
  received_out h hout := ((quiet_outwardAll h _ _).2 _ (congrArg Prod.fst hout)).1
  gets_reply _ _ h _ := h
  result_error := onlyGives_error _
  result_hostless := onlyGives_ok
  result_out id d h := (quiet_outwardOne h id d).2
  turns_refl := quiet_refl
  turns_trans _ := accounted_trans
  turns_put h := quiet_putHeap h _
  turns_take h := (quiet_takeHeap h _).2
  turns_in h := quiet_inward h _
  turns_inAll h := quiet_inwardAll h _
  turns_standard {id b f} args h hf := by
    by_cases hemitter : ∃ node sink, f = .emitter node sink
    · obtain ⟨node, sink, rfl⟩ := hemitter
      exact emitter_accounted h id hf args
    · exact standard_accounted h id hf (fun node sink heq => hemitter ⟨node, sink, heq⟩) args
  turns_custom args r h hf hasks := accounted_settled hasks hf (fun _ _ _ heq => by cases heq)
    (fun vs hok => ((quiet_outwardAll h _ args).2 vs hok).2) _
  asks_refl := quiet_refl
  asks_trans _ := accounted_trans
  asks_turns _ h := h
  asks_out args h := (quiet_outwardAll h _ args).1
  asks_release _ := quiet_release
  asks_close _ := quiet_close
  asks_reset _ := quiet_reset
  asks_brings _ h := h
  brings_error _ := quiet_refl
  brings_out d h := (quiet_outwardOne h _ d).1
  brings_after _ := accounted_trans
  brings_left h h' := accounted_after (quiet_enterRun h _)
    (accounted_before h' (quiet_leaveRun h'.only _))
  brings_marked _ _ _ h := ⟨h.only, h.sink, h.emitted, h.each⟩

structure Accounts (K : HostFn → Prop) (host : Host) (fuel : Nat) : Prop where
  run : ∀ b id machine, b.Only K → (∀ h, h.Only K → (machine h).Keeps (Heap.Only K)) →
    Tells K Anyhow b (Account.run host fuel b id machine) (run host fuel b id machine)
  query : ∀ elsewhere b q, b.Only K → (∀ v ∈ Query.values q, v.Only K) →
    Tells K Plainly b (Account.query host fuel elsewhere b q) (q.run host fuel elsewhere b)
  setGlobal : ∀ b name v, b.Only K → v.Only K →
    Tells K Anyhow b (Account.setGlobal host fuel b name v) (setGlobal host fuel b name v)

/-- If the host sends only such functions, all runs are accounted for. -/
theorem accounts {K : HostFn → Prop} {host : Host} (hhost : host.Only K) (fuel : Nat) :
    Accounts K host fuel := by
  have hall : Walk.Walked (accountWalk K host) host fuel :=
    Walk.walked _ (fun name args hargs => only_matches (hhost name args hargs)) fuel
  exact {
    run := fun b id machine hb hm r b' h =>
      ⟨accounted_after (quiet_enterRun hb id) ((hall.run b id machine hb hm).2 _ h), trivial⟩
    query := fun elsewhere b q hb hq r b' h =>
      have hqueried := (Walk.query_walked hall elsewhere b q hb (fun _ => hb) hq).2 _ h
      ⟨hqueried.asks, hqueried.result⟩
    setGlobal := fun b name v hb hv r b' h => ⟨(hall.setGlobal b name v hb hv).2 _ h, trivial⟩ }

end ScriptHost.Bridge
