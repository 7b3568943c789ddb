import ScriptHost.Proofs.Lua.Library

/-!
# What the machine keeps

A machine is a step and a stack of continuations.  Each of its turns keeps what scripts keep; when it turns
to a function of the host, the function is one of the heap.
-/

set_option autoImplicit false

namespace ScriptHost.Lua

inductive Frame.Keeps (P : Heap → Prop) : Frame → Prop
  | call {k : List Datum → Heap → Step} {place : Option Place} (hk : ∀ vs, Onward P (k vs)) :
      Keeps P (.call k place)
  | guard {handler : Option Datum} {k : List Datum → Heap → Step} (hk : ∀ vs, Onward P (k vs)) :
      Keeps P (.guard handler k)
  | closing (d : Datum) : Keeps P (.closing d)
  | resumed {thread : Nat} {k : List Datum → Heap → Step} (hk : ∀ vs, Onward P (k vs)) :
      Keeps P (.resumed thread k)
  | asleep {thread : Nat} {k : List Datum → Heap → Step} {frames : List Frame} (hk : ∀ vs, Onward P (k vs))
      (hframes : ∀ frame ∈ frames, Keeps P frame) : Keeps P (.asleep thread k frames)

structure Machine.Keeps (P : Heap → Prop) (m : Machine) : Prop where
  now : m.now.Keeps P
  stack : ∀ f ∈ m.stack, f.Keeps P

def Turn.Keeps (P : Heap → Prop) : Turn → Prop
  -- a turn keeps the property, and a function of the host that it calls is one of the heap
  | .running m => m.Keeps P
  | .finished _ h => P h
  | .failed _ h => P h
  | .host f _ h stack =>
    (P h ∧ ∀ frame ∈ stack, frame.Keeps P) ∧ ∃ address : Nat, h.routines[address]? = some (.host f)

namespace Machine

theorem calleeWithin_mem {h : Heap} {fuel : Nat} {f : Datum} {args args' : List Datum} {r : Routine}
    (hc : calleeWithin h fuel f args = .ok (r, args')) : ∃ address : Nat, h.routines[address]? = some r := by
  induction fuel generalizing f args with
  | zero => simp [calleeWithin] at hc
  | succ fuel ih =>
    simp only [calleeWithin] at hc
    split at hc
    · next address =>
      split at hc
      · next r' hr =>
        obtain ⟨rfl, -⟩ := Prod.mk.inj (Except.ok.inj hc)
        exact ⟨address, hr⟩
      · simp at hc
    · split at hc
      · simp at hc
      · exact ih hc

section
variable {P : Heap → Prop}

theorem mk_keeps {s : Step} {stack : List Frame} (hs : s.Keeps P)
    (hstack : ∀ frame ∈ stack, frame.Keeps P) : (⟨s, stack⟩ : Machine).Keeps P := ⟨hs, hstack⟩

theorem close_keeps (d e : Datum) {k : Heap → Step} (hk : Onward P k) : Onward P (close d e k) := by
  intro h hp
  simp only [close]
  split
  · exact ⟨hp, fun _ => hk⟩
  · exact hk h hp

theorem takeAsleep_keeps {t : Nat} {stack frames rest : List Frame} {k : List Datum → Heap → Step}
    (htake : takeAsleep t stack = some (k, frames, rest)) (hstack : ∀ frame ∈ stack, frame.Keeps P) :
    (∀ vs, Onward P (k vs)) ∧ (∀ frame ∈ frames, frame.Keeps P) ∧ ∀ frame ∈ rest, frame.Keeps P := by
  induction stack generalizing rest with
  | nil => cases htake
  | cons frame stack ih =>
    obtain ⟨hframe, hbelow⟩ := List.forall_mem_cons.mp hstack
    -- a frame that is not the one sought stays where it is
    have hpassed : (takeAsleep t stack).map (fun r => (r.1, r.2.1, frame :: r.2.2)) = some (k, frames, rest) →
        (∀ vs, Onward P (k vs)) ∧ (∀ frame ∈ frames, frame.Keeps P) ∧ ∀ frame ∈ rest, frame.Keeps P := by
      intro hmap
      obtain ⟨⟨k', frames', rest'⟩, hfound, heq⟩ := Option.map_eq_some_iff.mp hmap
      cases heq
      obtain ⟨hk, hframes, hrest⟩ := ih hfound hbelow
      exact ⟨hk, hframes, List.forall_mem_cons.mpr ⟨hframe, hrest⟩⟩
    cases frame with
    | asleep t' k' frames' =>
      simp only [takeAsleep] at htake
      split at htake
      · cases htake
        cases hframe with
        | asleep hk hframes => exact ⟨hk, hframes, hbelow⟩
      · exact hpassed htake
    | _ => exact hpassed htake

theorem splitRunning_keeps {t : Nat} {stack frames rest : List Frame} {k : List Datum → Heap → Step}
    (hsplit : splitRunning stack = some (frames, t, k, rest)) (hstack : ∀ frame ∈ stack, frame.Keeps P) :
    (∀ vs, Onward P (k vs)) ∧ (∀ frame ∈ frames, frame.Keeps P) ∧ ∀ frame ∈ rest, frame.Keeps P := by
  induction stack generalizing frames with
  | nil => cases hsplit
  | cons frame stack ih =>
    obtain ⟨hframe, hbelow⟩ := List.forall_mem_cons.mp hstack
    have hpassed : (splitRunning stack).map (fun r => (frame :: r.1, r.2)) = some (frames, t, k, rest) →
        (∀ vs, Onward P (k vs)) ∧ (∀ frame ∈ frames, frame.Keeps P) ∧ ∀ frame ∈ rest, frame.Keeps P := by
      intro hmap
      obtain ⟨⟨frames', t', k', rest'⟩, hfound, heq⟩ := Option.map_eq_some_iff.mp hmap
      cases heq
      obtain ⟨hk, hframes, hrest⟩ := ih hfound hbelow
      exact ⟨hk, List.forall_mem_cons.mpr ⟨hframe, hframes⟩, hrest⟩
    cases frame with
    | resumed t' k' =>
      cases hsplit
      cases hframe with
      | resumed hk => exact ⟨hk, by simp, hbelow⟩
    | _ => exact hpassed hsplit

variable (hP : Lasting P)
include hP

theorem enter_turns {h : Heap} (hp : P h) {r : Routine} (hr : ∃ address : Nat, h.routines[address]? = some r)
    (args : List Datum) (naming : Option Naming) {stack : List Frame}
    (hstack : ∀ frame ∈ stack, frame.Keeps P) : (enter r args naming h stack).Keeps P := by
  cases r with
  | script f env => exact mk_keeps (enter_keeps hP f env args h hp) hstack
  | library b => exact mk_keeps (Library.run_keeps hP b args _ h hp) hstack
  | host f => exact ⟨⟨hp, hstack⟩, hr⟩

theorem unwind_keeps (e : Thrown) {h : Heap} (hp : P h) {stack : List Frame}
    (hstack : ∀ frame ∈ stack, frame.Keeps P) : (unwind e h stack).Keeps P := by
  induction stack with
  | nil => exact hp
  | cons frame stack ih =>
    obtain ⟨hframe, hrest⟩ := List.forall_mem_cons.mp hstack
    cases hframe with
    | call hk => exact ih hrest
    | asleep hk hframes => exact ih hrest
    | closing d => exact mk_keeps (close_keeps d e.datum (fun h hp => hp) h hp) hrest
    | resumed hk => exact mk_keeps (hk _ _ (Library.failThread_lasts hP _ _ hp)) hrest
    | @guard handler k hk =>
      cases handler with
      | none => exact mk_keeps (hk _ h hp) hrest
      | some handler => exact mk_keeps ⟨hp, fun vs => hk _⟩ hrest

theorem call_keeps (f : Datum) (args : List Datum) (spot : Spot) {h : Heap} (hp : P h)
    {below inside : List Frame} (hbelow : ∀ frame ∈ below, frame.Keeps P)
    (hinside : ∀ frame ∈ inside, frame.Keeps P) : (call f args spot h below inside).Keeps P := by
  simp only [call]
  split
  · next r args' hc => exact enter_turns hP hp (calleeWithin_mem hc) args' _ hinside
  · exact mk_keeps hp hbelow

theorem advance_keeps {m : Machine} (hm : m.Keeps P) : m.advance.Keeps P := by
  obtain ⟨now, stack⟩ := m
  obtain ⟨hnow, hstack⟩ := hm
  cases now with
  | finish values h =>
    cases stack with
    | nil => exact hnow
    | cons frame stack =>
      obtain ⟨hframe, hrest⟩ := List.forall_mem_cons.mp hstack
      cases hframe with
      | call hk => exact mk_keeps (hk _ h hnow) hrest
      | guard hk => exact mk_keeps (hk _ h hnow) hrest
      | closing d => exact mk_keeps (close_keeps d .nil (finish_keeps values) h hnow) hrest
      | resumed hk => exact mk_keeps (hk _ _ (Library.endThread_lasts hP _ hnow)) hrest
      | asleep hk hframes => exact mk_keeps hnow hrest
  | throw e h => exact unwind_keeps hP e hnow hstack
  | call f args spot h k =>
    exact call_keeps hP f args spot hnow.1 hstack (List.forall_mem_cons.mpr ⟨.call hnow.2, hstack⟩)
  | tail f args spot h =>
    simp only [advance]
    split
    · exact mk_keeps (enter_keeps hP _ _ _ h hnow) hstack
    · exact call_keeps hP f args spot hnow hstack
        (List.forall_mem_cons.mpr ⟨.call finish_keeps, hstack⟩)
  | attempt f args handler h k =>
    have hguard : Frame.Keeps P (.guard handler k) := .guard hnow.2
    have hinside := List.forall_mem_cons.mpr ⟨hguard, hstack⟩
    exact call_keeps hP f args .nowhere hnow.1 hinside hinside
  | again l h k => exact mk_keeps (turn_keeps hP l hnow.2 h hnow.1) hstack
  | enclose d h k =>
    exact mk_keeps (hnow.2 h hnow.1) (List.forall_mem_cons.mpr ⟨.closing d, hstack⟩)
  | leave h k =>
    simp only [advance]
    split
    · next d rest =>
      obtain ⟨-, hrest⟩ := List.forall_mem_cons.mp hstack
      exact mk_keeps (close_keeps d .nil hnow.2 h hnow.1) hrest
    · exact mk_keeps (hnow.2 h hnow.1) hstack
  | spawn t f h k =>
    refine mk_keeps (hnow.2 h hnow.1) (List.forall_mem_append.mpr ⟨hstack, ?_⟩)
    exact List.forall_mem_singleton.mpr (.asleep (fun vs h hp => hp) (by simp))
  | wake t args h k =>
    simp only [advance]
    split
    · next next frames rest htake =>
      obtain ⟨hnext, hframes, hrest⟩ := takeAsleep_keeps htake hstack
      refine mk_keeps (hnext _ h hnow.1) (List.forall_mem_append.mpr ⟨hframes, ?_⟩)
      exact List.forall_mem_cons.mpr ⟨.resumed hnow.2, hrest⟩
    · exact mk_keeps (hnow.2 _ h hnow.1) hstack
  | yield values h k =>
    simp only [advance]
    split
    · next frames t next rest hsplit =>
      obtain ⟨hnext, hframes, hrest⟩ := splitRunning_keeps hsplit hstack
      refine mk_keeps (hnext _ h hnow.1) (List.forall_mem_append.mpr ⟨hrest, ?_⟩)
      exact List.forall_mem_singleton.mpr (.asleep hnow.2 hframes)
    · exact mk_keeps (hnow.2 _ h hnow.1) hstack
  | shut t h k =>
    simp only [advance]
    split
    · next next frames rest htake =>
      obtain ⟨-, hframes, hrest⟩ := takeAsleep_keeps htake hstack
      have hended : ∀ vs, Onward P fun h => k vs (h.endThread t) :=
        fun vs h hp => hnow.2 vs _ (Library.endThread_lasts hP t hp)
      refine mk_keeps hnow.1 (List.forall_mem_append.mpr ⟨?_, List.forall_mem_cons.mpr ⟨.resumed hended, hrest⟩⟩)
      exact fun frame hf => hframes frame (List.mem_filter.mp hf).1
    · exact mk_keeps (hnow.2 _ h hnow.1) hstack
  | pause h k => exact mk_keeps (hnow.2 h hnow.1) hstack

omit hP in
theorem resume_keeps (values : List Datum) {h : Heap} (hp : P h) {stack : List Frame}
    (hstack : ∀ frame ∈ stack, frame.Keeps P) : (resume values h stack).Keeps P := mk_keeps hp hstack

theorem interrupt_keeps (e : ScriptError) {h : Heap} (hp : P h) {stack : List Frame}
    (hstack : ∀ frame ∈ stack, frame.Keeps P) : (interrupt e h stack).Keeps P :=
  mk_keeps (hP.serial h hp) hstack

omit hP in
theorem start_keeps (f : Datum) (args : List Datum) {h : Heap} (hp : P h) : (start f args h).Keeps P :=
  mk_keeps hp (by simp)

theorem reading_keeps (name : String) {h : Heap} (hp : P h) : (reading name h).Keeps P := by
  refine mk_keeps (build_keeps hP _ (fun name h hp => ?_) h hp) (by simp)
  exact index_keeps _ _ _ (fun v => finish_keeps [v]) h hp

theorem writing_keeps (name : String) (value : Datum) {h : Heap} (hp : P h) :
    (writing name value h).Keeps P := by
  refine mk_keeps (build_keeps hP _ (fun name h hp => ?_) h hp) (by simp)
  exact setIndex_keeps hP _ _ _ _ (finish_keeps []) h hp

omit hP in
theorem describing_keeps (d : Datum) {h : Heap} (hp : P h) : (describing d h).Keeps P :=
  mk_keeps (toText_keeps d none (fun s => finish_keeps [.string s]) h hp) (by simp)

end

end Machine

end ScriptHost.Lua
