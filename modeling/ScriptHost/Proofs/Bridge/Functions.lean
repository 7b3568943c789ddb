import ScriptHost.Proofs.Bridge.Sessions
import ScriptHost.Proofs.Crossing.Return
import ScriptHost.Proofs.Lua.Start
import ScriptHost.Proofs.Lua.Turning
import ScriptHost.Proofs.Value.Functions

/-!
# The host functions that scripts can reach

A script calls what functions of the host its heap holds, and it cannot make new ones: they come into a
heap only with the values that the host sends.  So what all the host's functions have in common all have
that scripts ever call.
-/

set_option autoImplicit false

namespace ScriptHost
open Lua

namespace Lua

def Heap.Only (K : HostFn → Prop) (h : Heap) : Prop :=
  ∀ f, (∃ address : Nat, h.routines[address]? = some (.host f)) → K f

theorem Heap.only_addRoutine {K : HostFn → Prop} {h : Heap} (ho : h.Only K) (r : Routine)
    (hr : ∀ f, r = .host f → K f) : (h.addRoutine r).2.Only K := by
  rintro f ⟨address, hf⟩
  have hpushed : (h.routines.push r)[address]? = some (.host f) := hf
  rw [Array.getElem?_push] at hpushed
  split at hpushed
  · exact hr f (Option.some.inj hpushed)
  · exact ho f ⟨address, hpushed⟩

theorem Heap.only_lasting (K : HostFn → Prop) : Lasting (Heap.Only K) where
  allocate _ _ ho := ho
  modify _ _ _ ho := ho
  script _ _ _ ho := Heap.only_addRoutine ho _ fun _ h => Routine.noConfusion h
  library _ _ ho := Heap.only_addRoutine ho _ fun _ h => Routine.noConfusion h
  addCell _ _ ho := ho
  setCell _ _ _ ho := ho
  serial _ ho := ho
  spend _ _ ho := ho

theorem Heap.only_default (K : HostFn → Prop) : (default : Heap).Only K := by
  rintro f ⟨address, hf⟩
  cases hf

theorem Heap.only_load {K : HostFn → Prop} {h h' : Heap} (ho : h.Only K) {source : ByteArray}
    {chunk : String} {f : Datum} (hload : h.load source chunk = .ok (f, h')) : h'.Only K := by
  unfold Heap.load at hload
  dsimp only at hload
  repeat' split at hload
  all_goals cases hload
  next h₁ hc =>
    exact Library.addChunk_lasts (Heap.only_lasting K) _ _ _ (Heap.claim_lasts (Heap.only_lasting K) hc ho)

theorem Heap.only_founded (K : HostFn → Prop) : Founded (Heap.Only K) :=
  (Heap.only_lasting K).founded fun _ _ ho => ho

/-- A new interpreter has its library and nothing of the host's. -/
theorem Heap.only_start (K : HostFn → Prop) (sandbox : Bool) (allocator : Option Allocator) :
    (Heap.start sandbox allocator).Only K := by
  refine Heap.start_founded (Heap.only_founded K) sandbox ?_
  rintro f ⟨address, hf⟩
  cases hf

end Lua

namespace Crossing

section
variable {K : HostFn → Prop} {session : SessionId} {pins : List Pin}

def Brings (K : HostFn → Prop) (session : SessionId) (pins : List Pin) (v : Value) : Prop :=
  ∀ h d h', inward session pins v h = .ok (d, h') → h.Only K → h'.Only K

theorem claim_only {size : Nat} {h h' : Heap} (hc : claim size h = .ok h') (ho : h.Only K) :
    h'.Only K := by
  unfold claim at hc
  split at hc
  · next hsome => exact Except.ok.inj hc ▸ Heap.claim_lasts (Heap.only_lasting K) hsome ho
  · cases hc

theorem inwardItems_only {items : List Value} (hitems : ∀ v ∈ items, Brings K session pins v)
    {t t' : Table} {i : Nat} {h h' : Heap} (hin : inwardItems session pins t i items h = .ok (t', h'))
    (ho : h.Only K) : h'.Only K := by
  induction items generalizing t i h with
  | nil =>
    obtain ⟨-, rfl⟩ := Prod.mk.inj (Except.ok.inj hin)
    exact ho
  | cons v rest ih =>
    obtain ⟨hv, hrest⟩ := List.forall_mem_cons.mp hitems
    simp only [inwardItems] at hin
    split at hin
    · cases hin
    · next d h₁ hd => exact ih hrest hin (hv h d h₁ hd ho)

theorem inwardMembers_only {members : List (String × Value)}
    (hmembers : ∀ e ∈ members, Brings K session pins e.2) {t t' : Table} {h h' : Heap}
    (hin : inwardMembers session pins t members h = .ok (t', h')) (ho : h.Only K) : h'.Only K := by
  induction members generalizing t h with
  | nil =>
    obtain ⟨-, rfl⟩ := Prod.mk.inj (Except.ok.inj hin)
    exact ho
  | cons e rest ih =>
    obtain ⟨he, hrest⟩ := List.forall_mem_cons.mp hmembers
    simp only [inwardMembers] at hin
    split at hin
    · cases hin
    · next d h₁ hd =>
      split at hin
      · cases hin
      · next h₂ hc => exact ih hrest hin (claim_only hc (he h d h₁ hd ho))

theorem only_brings {v : Value} (hv : v.Only K) : Brings K session pins v := by
  induction hv with
  | array items _ ih =>
    intro h d h' hin ho
    simp only [inward] at hin
    split at hin
    · cases hin
    · next h₀ hc =>
      split at hin
      · cases hin
      · next t h₁ ht =>
        obtain ⟨-, rfl⟩ := Prod.mk.inj (Except.ok.inj hin)
        exact (Heap.only_lasting K).allocate h₁ t (inwardItems_only ih ht (claim_only hc ho))
  | map members _ ih =>
    intro h d h' hin ho
    simp only [inward] at hin
    split at hin
    · cases hin
    · next h₀ hc =>
      split at hin
      · cases hin
      · next t h₁ ht =>
        obtain ⟨-, rfl⟩ := Prod.mk.inj (Except.ok.inj hin)
        exact (Heap.only_lasting K).allocate h₁ t (inwardMembers_only ih ht (claim_only hc ho))
  | function f hf =>
    intro h d h' hin ho
    simp only [inward] at hin
    split at hin
    · cases hin
    · next h₀ hc =>
      obtain ⟨-, rfl⟩ := Prod.mk.inj (Except.ok.inj hin)
      exact Heap.only_addRoutine (claim_only hc ho) _ fun g hg => Routine.host.inj hg ▸ hf
  | string s =>
    intro h d h' hin ho
    simp only [inward] at hin
    split at hin
    · cases hin
    · next h₀ hc =>
      obtain ⟨-, rfl⟩ := Prod.mk.inj (Except.ok.inj hin)
      exact claim_only hc ho
  | callable handle =>
    intro h d h' hin ho
    simp only [inward] at hin
    split at hin
    · cases hin
    · obtain ⟨-, rfl⟩ := Prod.mk.inj (Except.ok.inj hin)
      exact ho
  | _ =>
    intro h d h' hin ho
    obtain ⟨-, rfl⟩ := Prod.mk.inj (Except.ok.inj hin)
    exact ho

theorem inwardAll_only {vs : List Value} (hvs : ∀ v ∈ vs, v.Only K) {ds : List Datum} {h h' : Heap}
    (hin : inwardAll session pins vs h = .ok (ds, h')) (ho : h.Only K) : h'.Only K := by
  induction vs generalizing ds h with
  | nil =>
    obtain ⟨-, rfl⟩ := Prod.mk.inj (Except.ok.inj hin)
    exact ho
  | cons v rest ih =>
    obtain ⟨hv, hrest⟩ := List.forall_mem_cons.mp hvs
    simp only [inwardAll] at hin
    split at hin
    · cases hin
    · next d h₁ hd =>
      split at hin
      · cases hin
      · next ds₁ h₂ hds =>
        obtain ⟨-, rfl⟩ := Prod.mk.inj (Except.ok.inj hin)
        exact ih hrest hds (only_brings hv h d h₁ hd ho)

end

end Crossing

namespace Session

structure Only (K : HostFn → Prop) (s : Session) : Prop where
  heap : s.heap.Only K
  state : ∀ e ∈ s.state, e.2.Only K

section
variable {K : HostFn → Prop} {s : Session}

/-- What a session does with its pins brings no functions. -/
theorem only_same (hs : s.Only K) {s' : Session} (hheap : s'.heap = s.heap) (hstate : s'.state = s.state) :
    s'.Only K := ⟨hheap ▸ hs.heap, hstate ▸ hs.state⟩

theorem only_start (K : HostFn → Prop) (id : SessionId) (config : Config) :
    (Session.start id config).Only K := ⟨Heap.only_start K _ _, by simp [Session.start]⟩

theorem outward_same (s : Session) (d : Datum) :
    (s.outward d).2.heap = s.heap ∧ (s.outward d).2.state = s.state := by
  unfold outward
  split <;> exact ⟨rfl, rfl⟩

theorem outward_unfolds {s' : Session} {d : Datum} {v : Value} (h : s.outward d = (.ok v, s')) :
    ∃ issued, Crossing.Unfolds s.heap issued d v := by
  unfold outward at h
  split at h
  · cases h
  · next w issue hw =>
    obtain ⟨hv, -⟩ := Prod.mk.inj h
    obtain rfl := Except.ok.inj hv
    exact ⟨_, Crossing.outwardWithin_unfolds _ _ [] d _ _ w hw⟩

theorem inward_only (hs : s.Only K) {s' : Session} {v : Value} (hv : v.Only K) {d : Datum}
    (h : s.inward v = .ok (d, s')) : s'.Only K := by
  unfold inward at h
  cases hin : Crossing.inward s.id s.pins v s.heap with
  | error e => simp [hin, Except.map] at h
  | ok r =>
    rw [hin] at h
    obtain ⟨-, rfl⟩ := Prod.mk.inj (Except.ok.inj h)
    exact ⟨Crossing.only_brings hv _ _ _ hin hs.heap, hs.state⟩

theorem inwardAll_only (hs : s.Only K) {s' : Session} {vs : List Value} (hvs : ∀ v ∈ vs, v.Only K)
    {ds : List Datum} (h : s.inwardAll vs = .ok (ds, s')) : s'.Only K := by
  unfold inwardAll at h
  cases hin : Crossing.inwardAll s.id s.pins vs s.heap with
  | error e => simp [hin, Except.map] at h
  | ok r =>
    rw [hin] at h
    obtain ⟨-, rfl⟩ := Prod.mk.inj (Except.ok.inj h)
    exact ⟨Crossing.inwardAll_only hvs hin hs.heap, hs.state⟩

end

end Session

def Request.Only (K : HostFn → Prop) : Request → Prop
  | .callGlobal _ args => ∀ v ∈ args, v.Only K
  | .invoke _ args => ∀ v ∈ args, v.Only K
  | .setGlobal _ v => v.Only K
  | _ => True

inductive HostAction.Only (K : HostFn → Prop) : HostAction → Prop
  | done (v : Value) (hv : v.Only K) : Only K (.done v)
  | fail (e : ScriptError) : Only K (.fail e)
  | panic (message : Option String) : Only K (.panic message)
  | ask (r : Request) (next : Except ScriptError Value → HostAction) (hr : r.Only K)
      (hn : ∀ result, OnlyGives (fun _ => False) result → Only K (next result)) : Only K (.ask r next)

def Host.Only (K : HostFn → Prop) (host : Host) : Prop :=
  ∀ name args, (∀ v ∈ args, v.Hostless) → (host name args).Only K

section
variable {K L : HostFn → Prop} (hKL : ∀ f, K f → L f)
include hKL

theorem Request.only_mono {r : Request} (hr : r.Only K) : r.Only L := by
  cases r with
  | callGlobal name args => exact fun v hv => Value.only_mono hKL (hr v hv)
  | invoke handle args => exact fun v hv => Value.only_mono hKL (hr v hv)
  | setGlobal name v => exact Value.only_mono hKL hr
  | _ => trivial

theorem HostAction.only_mono {action : HostAction} (ha : action.Only K) : action.Only L := by
  induction ha with
  | done v hv => exact .done v (Value.only_mono hKL hv)
  | fail e => exact .fail e
  | panic message => exact .panic message
  | ask r next hr _ ih => exact .ask r next (Request.only_mono hKL hr) ih

theorem Host.only_mono {host : Host} (hh : host.Only K) : host.Only L :=
  fun name args hargs => HostAction.only_mono hKL (hh name args hargs)

end

namespace Bridge

def Only (K : HostFn → Prop) (b : Bridge) : Prop := ∀ s ∈ b.sessions, s.Only K

theorem only_mono {K L : HostFn → Prop} (hKL : ∀ f, K f → L f) {b : Bridge} (hb : b.Only K) : b.Only L :=
  fun s hs => {
    heap := fun f hf => hKL f ((hb s hs).heap f hf)
    state := fun e he => Value.only_mono hKL ((hb s hs).state e he) }

section
variable {K : HostFn → Prop} {b : Bridge}

theorem only_update (hb : b.Only K) (id : SessionId) {f : Session → Session}
    (hf : ∀ s ∈ b.sessions, s.id = id → (f s).Only K) : (b.update id f).Only K := by
  intro s hs
  rw [update_sessions] at hs
  obtain ⟨t, ht, rfl⟩ := List.mem_map.mp hs
  split
  · next hid => exact hf t ht hid
  · exact hb t ht

theorem only_map {b' : Bridge} (hb : b.Only K) {f : Session → Session}
    (hsub : b'.sessions ⊆ b.sessions.map f) (hheap : ∀ s, (f s).heap = s.heap)
    (hstate : ∀ s, (f s).state = s.state) : b'.Only K := by
  intro s hs
  obtain ⟨t, ht, rfl⟩ := List.mem_map.mp (hsub hs)
  exact Session.only_same (hb t ht) (hheap t) (hstate t)

theorem only_found (hb : b.Only K) {id : SessionId} {s : Session} (hs : b.find? id = some s) : s.Only K :=
  hb s (mem_of_find hs).1

theorem only_open (hb : b.Only K) {s : Session} (hs : b.session = some s) : s.Only K := hb s (mem_open hs)

end

end Bridge

end ScriptHost
