import ScriptHost.Proofs.Bridge.Accounted
import ScriptHost.Proofs.Bridge.Operations

/-!
# Where emitters come from

The program that embeds a bridge has no emitters: only the invocation of a script node makes one, for its
own sink.  So no operation brings a bridge an emitter of a sink that is still to come.
-/

set_option autoImplicit false

namespace ScriptHost
open Lua

namespace HostFn

def Own : HostFn → Prop
  | .standard (.emitter _ _) => False
  | _ => True

def UpTo (last : Nat) : HostFn → Prop
  -- no emitter, or one of a sink that was opened by then
  | .standard (.emitter _ sink) => sink ≤ last
  | _ => True

def During (data : ScriptNode) (last : Nat) : HostFn → Prop
  -- emitters of the last sink are of one node
  | .standard (.emitter node sink) => sink ≤ last ∧ (sink = last → node = data)
  | _ => True

theorem own_upTo (last : Nat) (f : HostFn) (hf : f.Own) : f.UpTo last := by
  unfold UpTo
  split
  · exact absurd hf id
  · trivial

theorem own_during (data : ScriptNode) (last : Nat) (f : HostFn) (hf : f.Own) : f.During data last := by
  unfold During
  split
  · exact absurd hf id
  · trivial

theorem upTo_during (data : ScriptNode) (last : Nat) (f : HostFn) (hf : f.UpTo last) :
    f.During data (last + 1) := by
  unfold During
  split
  · next node sink =>
    have hle : sink ≤ last := hf
    exact ⟨by omega, by omega⟩
  · trivial

theorem during_upTo (data : ScriptNode) (last : Nat) (f : HostFn) (hf : f.During data last) :
    f.UpTo (last + 1) := by
  unfold UpTo
  split
  · next node sink =>
    have hle : sink ≤ last := hf.1
    omega
  · trivial

end HostFn

def StandardGlobal.Only (K : HostFn → Prop) : StandardGlobal → Prop
  | .function f => K (.standard f)
  | .table methods => ∀ m ∈ methods, K (.standard m.2)

theorem standardGlobals_own : ∀ g ∈ standardGlobals, g.2.Only HostFn.Own := by
  simp only [standardGlobals, List.forall_mem_cons]
  refine ⟨trivial, trivial, trivial, trivial, ?_, ?_, ?_, by simp⟩
  · simp only [StandardGlobal.Only, List.forall_mem_cons]
    exact ⟨trivial, trivial, trivial, by simp⟩
  · simp only [StandardGlobal.Only, List.forall_mem_cons]
    exact ⟨trivial, trivial, trivial, trivial, by simp⟩
  · intro m hm
    obtain ⟨tag, -, rfl⟩ := List.mem_map.mp hm
    trivial

namespace Bridge

def Query.Only (K : HostFn → Prop) : Query → Prop
  | .callGlobal _ args => ∀ v ∈ args, v.Only K
  | .invoke _ args => ∀ v ∈ args, v.Only K
  | _ => True

theorem Query.only_values {K : HostFn → Prop} {q : Query} (hq : q.Only K) : ∀ v ∈ q.values, v.Only K := by
  cases q with
  | execute source chunk => exact List.forall_mem_nil _
  | callGlobal name args => exact hq
  | invoke handle args => exact hq
  | getGlobal name => exact List.forall_mem_nil _

def Operation.Only (K : HostFn → Prop) : Operation → Prop
  | .query q => q.Only K
  | .setGlobal _ v => v.Only K
  | .registerFunction _ f => K f
  | .registerModule _ methods => ∀ m ∈ methods, K m.2
  | .dispatch _ args => ∀ v ∈ args, v.Only K
  | _ => True

theorem Query.only_mono {K L : HostFn → Prop} (hKL : ∀ f, K f → L f) {q : Query} (hq : q.Only K) :
    q.Only L := by
  cases q with
  | callGlobal name args => exact fun v hv => Value.only_mono hKL (hq v hv)
  | invoke handle args => exact fun v hv => Value.only_mono hKL (hq v hv)
  | _ => trivial

theorem Operation.only_mono {K L : HostFn → Prop} (hKL : ∀ f, K f → L f) {operation : Operation}
    (h : operation.Only K) : operation.Only L := by
  cases operation with
  | query q => exact Query.only_mono hKL h
  | setGlobal name v => exact Value.only_mono hKL h
  | registerFunction name f => exact hKL f h
  | registerModule name methods => exact fun m hm => hKL m.2 (h m hm)
  | dispatch handle args => exact fun v hv => Value.only_mono hKL (h v hv)
  | _ => trivial

structure Stays (K : HostFn → Prop) (b b' : Bridge) : Prop where
  only : b'.Only K
  sink : b'.sink = b.sink

def Ends {α : Type} (K : HostFn → Prop) (b : Bridge) (a : Option (α × Bridge)) : Prop :=
  ∀ r b', a = some (r, b') → Stays K b b'

section
variable {α β : Type} {K : HostFn → Prop} {a b c : Bridge}

theorem stays_accounted {calls : List HostCall} (h : Accounted K calls a b) : Stays K a b :=
  ⟨h.only, h.sink⟩

theorem stays_trans (h : Stays K a b) (h' : Stays K b c) : Stays K a c := ⟨h'.only, h'.sink.trans h.sink⟩

theorem ends_tells {fits : Except ScriptError α → Prop} {calls : List HostCall} {x : Answer α}
    (h : Tells K fits b calls x) : Ends K b x := fun r b' hr => stays_accounted (h r b' hr).1

theorem ends_some {r : α} (h : Stays K b c) : Ends K b (some (r, c)) := by
  intro r' c' hr
  obtain ⟨-, rfl⟩ := Prod.mk.inj (Option.some.inj hr)
  exact h

theorem ends_after {x : Option (α × Bridge)} (h : Stays K a b) (hx : Ends K b x) : Ends K a x :=
  fun r c hr => stays_trans h (hx r c hr)

theorem ends_map {x : Option (α × Bridge)} (h : Ends K b x) (f : α × Bridge → β) :
    Ends K b (x.map fun r => (f r, r.2)) := by
  intro r c hr
  obtain ⟨⟨y, d⟩, hy, heq⟩ := Option.map_eq_some_iff.mp hr
  obtain ⟨-, rfl⟩ := Prod.mk.inj heq
  exact h y d hy

theorem ends_diagnosed {x : Answer α} (chunk : String) (h : Ends K b x) : Ends K b (diagnosed chunk x) := by
  unfold diagnosed
  exact ends_map h _

theorem ends_next {x : Answer α} {f : Bridge → α → Answer β} (h : Ends K b x)
    (hf : ∀ c v, c.Only K → Ends K c (f c v)) : Ends K b (x.next f) := by
  intro r c hr
  rcases next_some hr with ⟨e, hx, -⟩ | ⟨v, d, hx, hrest⟩
  · exact h _ c hx
  · have hfirst := h _ d hx
    exact stays_trans hfirst (hf d v hfirst.only r c hrest)

end

section
variable {K : HostFn → Prop} {b : Bridge} (hb : b.Only K)
include hb

theorem stays_refl : Stays K b b := ⟨hb, rfl⟩

theorem stays_update (id : SessionId) {f : Session → Session} (hheap : ∀ s, (f s).heap = s.heap)
    (hstate : ∀ s, (f s).state = s.state) : Stays K b (b.update id f) :=
  ⟨only_update hb id fun s hs _ => Session.only_same (hb s hs) (hheap s) (hstate s), rfl⟩

theorem stays_drop (handle : Handle) : Stays K b (b.drop handle) := by
  refine stays_update hb handle.session (fun s => ?_) fun s => ?_
  · unfold Session.drop
    split <;> rfl
  · unfold Session.drop
    split <;> rfl

theorem stays_retain (handle : Handle) : Stays K b (b.retain handle) := by
  refine stays_update hb handle.session (fun s => ?_) fun s => ?_
  · unfold Session.retain
    split <;> rfl
  · unfold Session.retain
    split <;> rfl

theorem stays_dropAll (handles : List Handle) : Stays K b (b.dropAll handles) := by
  induction handles generalizing b with
  | nil => exact stays_refl hb
  | cons handle rest ih => exact stays_trans (stays_drop hb handle) (ih (stays_drop hb handle).only)

theorem stays_compile (source chunk : String) : Stays K b (b.compile source chunk).2 := by
  unfold compile
  split
  · exact stays_refl hb
  · next s hs =>
    split
    · exact stays_refl hb
    · next f heap hload =>
      refine ⟨fun t ht => ?_, rfl⟩
      rcases List.mem_append.mp ht with hopen | hlingers
      · obtain rfl : t = (({ s with heap } : Session).pin f).2 := by simpa using hopen
        exact ⟨Heap.only_load (only_open hb hs).heap hload, (only_open hb hs).state⟩
      · exact hb t (List.mem_append_right _ hlingers)

omit hb in
theorem methodTable_only {h h' : Heap} (ho : h.Only K) {t t' : Table} {methods : List (String × HostFn)}
    (hm : ∀ m ∈ methods, K m.2) (hmade : methodTable t methods h = .ok (t', h')) : h'.Only K := by
  induction methods generalizing t h with
  | nil =>
    obtain ⟨-, rfl⟩ := Prod.mk.inj (Except.ok.inj hmade)
    exact ho
  | cons m rest ih =>
    obtain ⟨hf, hrest⟩ := List.forall_mem_cons.mp hm
    rw [methodTable] at hmade
    split at hmade
    · cases hmade
    · next h₁ hc =>
      have ho₁ := Heap.claim_lasts (Heap.only_lasting K) hc ho
      exact ih (Heap.only_addRoutine ho₁ _ fun f h => Routine.host.inj h ▸ hf) hrest hmade

omit hb in
theorem makeModule_only {h h' : Heap} (ho : h.Only K) {methods : List (String × HostFn)} {d : Datum}
    (hm : ∀ m ∈ methods, K m.2) (hmade : makeModule methods h = .ok (d, h')) : h'.Only K := by
  rw [makeModule] at hmade
  split at hmade
  · cases hmade
  · next h₁ hc =>
    split at hmade
    · cases hmade
    · next t h₂ hmethods =>
      obtain ⟨-, rfl⟩ := Prod.mk.inj (Except.ok.inj hmade)
      have ho₁ := Heap.claim_lasts (Heap.only_lasting K) hc ho
      exact (Heap.only_lasting K).allocate h₂ t (methodTable_only ho₁ hm hmethods)

variable {host : Host} (hhost : host.Only K) (fuel : Nat)
include hhost

/-- Setting a global variable of a session with another heap. -/
theorem writing_ends (id : SessionId) {h : Heap} (ho : h.Only K) (name : String) (d : Datum) :
    Ends K b ((run host fuel (b.putHeap id h) id (.writing name d)).map fun r =>
      (r.1.map fun _ => (), r.2.leaveRun id)) := by
  have hput := quiet_putHeap hb id ho
  have hrun := tells_after hput ((accounts hhost fuel).run _ id (.writing name d) hput.only
    fun _ ho => Machine.writing_keeps (Heap.only_lasting K) name d ho)
  have hleave : ∀ {calls b'}, Accounted K calls b b' → Accounted K calls b (b'.leaveRun id) :=
    fun h => accounted_before h (quiet_leaveRun h.only id)
  have hmapped : Tells K Anyhow b _ ((run host fuel (b.putHeap id h) id (.writing name d)).map fun r =>
      (r.1.map fun _ => (), r.2.leaveRun id)) :=
    tells_map (f := fun r => r.map fun _ => ()) hrun (fun _ hr => hr) fun _ => hleave
  exact ends_tells hmapped

theorem registerModule_ends (name : String) {methods : List (String × HostFn)}
    (hm : ∀ m ∈ methods, K m.2) : Ends K b (b.registerModule host fuel name methods) := by
  unfold registerModule withSession
  split
  · exact ends_some (stays_refl hb)
  · next s hs =>
    dsimp only
    split
    · exact ends_some (stays_refl hb)
    · next d h hmade =>
      exact writing_ends hb hhost fuel s.id (makeModule_only (only_open hb hs).heap hm hmade) name d

theorem exposeAll_ends {globals : List (String × StandardGlobal)}
    (hglobals : ∀ g ∈ globals, g.2.Only K) : Ends K b (exposeAll host fuel b globals) := by
  induction globals generalizing b with
  | nil => exact ends_some (stays_refl hb)
  | cons g rest ih =>
    obtain ⟨hg, hrest⟩ := List.forall_mem_cons.mp hglobals
    obtain ⟨name, g⟩ := g
    refine ends_next ?_ fun c _ hc => ih hc hrest
    cases g with
    | function f => exact ends_tells ((accounts hhost fuel).setGlobal b name _ hb (.function _ hg))
    | table methods =>
      refine registerModule_ends hb hhost fuel name fun m hm => ?_
      obtain ⟨method, hmethod, rfl⟩ := List.mem_map.mp hm
      exact hg method hmethod

/-- None of the standard globals is an emitter. -/
theorem install_ends (hK : ∀ f : HostFn, f.Own → K f) : Ends K b (b.install host fuel) := by
  have hglobals : ∀ g ∈ standardGlobals, g.2.Only K := by
    rintro ⟨name, g⟩ hg
    have hown := standardGlobals_own _ hg
    cases g with
    | function f => exact hK _ hown
    | table methods => exact fun m hm => hK _ (hown m hm)
  unfold install withSession
  split
  · exact ends_some (stays_refl hb)
  · next s hs =>
    dsimp only
    split
    · exact ends_some (stays_refl hb)
    · refine ends_next (exposeAll_ends hb hhost fuel hglobals) fun c _ hc => ?_
      exact ends_some (stays_update hc s.id (fun _ => rfl) fun _ => rfl)

theorem query_ends (elsewhere : Handle → Bool) (q : Query) (hq : q.Only K) :
    Ends K b (q.run host fuel elsewhere b) :=
  ends_tells ((accounts hhost fuel).query elsewhere b q hb (Query.only_values hq))

theorem runUiNamed_ends (hK : ∀ f : HostFn, f.Own → K f) (source chunk : String) :
    Ends K b (b.runUiNamed host fuel source chunk) := by
  refine ends_diagnosed chunk ?_
  have hrelease := stays_accounted (quiet_release hb)
  refine ends_after hrelease (ends_next (install_ends hrelease.only hhost fuel hK) fun c _ hc => ?_)
  refine ends_next (query_ends hc hhost fuel (fun _ => false) (.execute source chunk) trivial)
    fun d v hd => ?_
  exact ends_some (stays_dropAll hd _)

end

/-- No operation brings the bridge a function that the embedding program did not send, and none opens a
sink. -/
theorem step_ends {K : HostFn → Prop} (hK : ∀ f : HostFn, f.Own → K f) {b : Bridge} (hb : b.Only K)
    (step : Step) (hhost : step.host.Only K) (hop : step.operation.Only K) : Ends K b (step.run b) := by
  obtain ⟨host, fuel, elsewhere, operation⟩ := step
  cases operation with
  | query q => exact ends_map (query_ends hb hhost fuel elsewhere q hop) _
  | setGlobal name v => exact ends_map (ends_tells ((accounts hhost fuel).setGlobal b name v hb hop)) _
  | compile source chunk => exact ends_some (stays_compile hb source chunk)
  | registerFunction name f =>
    exact ends_map (ends_tells ((accounts hhost fuel).setGlobal b name _ hb (.function f hop))) _
  | registerModule name methods => exact ends_map (registerModule_ends hb hhost fuel name hop) _
  | install => exact ends_map (install_ends hb hhost fuel hK) _
  | runUi source chunk => exact ends_map (runUiNamed_ends hb hhost fuel hK source chunk) _
  | preview source =>
    simp only [Step.run, preview]
    exact ends_map (ends_map (runUiNamed_ends hb hhost fuel hK source _) _) _
  | dispatch handle args =>
    exact ends_map (ends_diagnosed _ (query_ends hb hhost fuel elsewhere (.invoke handle args) hop)) _
  | release => exact ends_some (stays_accounted (quiet_release hb))
  | close => exact ends_some (stays_accounted (quiet_close hb))
  | reset => exact ends_some (stays_accounted (quiet_reset hb))
  | retain handle => exact ends_some (stays_retain hb handle)
  | drop handle => exact ends_some (stays_drop hb handle)
  | _ => exact ends_some (stays_refl hb)

end Bridge

end ScriptHost
