import ScriptHost.Proofs.Bridge.Refusal
import ScriptHost.Proofs.Bridge.State
import ScriptHost.Proofs.Bridge.Turns

/-!
# Errors that nothing catches

An error of a host function is thrown in the run that called it.  Where no protected call waits for it, it
ends the run, and the host, or the host function that began the run, gets it back.  That function may
fail with it in turn, in the run that called it, and so on outward.  At each border the error is rebuilt;
this module shows that only the first time can change anything.
-/

set_option autoImplicit false

namespace ScriptHost

def ErrorKind.crossed : ErrorKind → ErrorKind
  | .config => .runtime
  | .io => .runtime
  | kind => kind

theorem ScriptError.crossed_kind (e : ScriptError) : e.crossed.kind = e.kind.crossed := by
  cases e <;> rfl

example (expected actual : String) :
    (ScriptError.typeMismatch expected actual).crossed.kind = .marshal := rfl

example (fault : GraphFault) : (ScriptError.graph fault).crossed.kind = .runtime := rfl

theorem ScriptError.crossed_message (e : ScriptError) : e.crossed.message = e.message := by
  cases e <;> rfl

theorem ScriptError.crossed_crossed (e : ScriptError) : e.crossed.crossed = e.crossed := by
  cases e <;> rfl

/-- An error as the host gets it back: the same text, the kind as far as it crosses, and nothing more to
lose on the way through another session. -/
structure ScriptError.Kept (e x : ScriptError) : Prop where
  message : x.message = e.message
  kind : x.kind = e.kind.crossed
  settled : x.crossed = x

def Lua.Failure.wrapped (e : ScriptError) : Nat → Lua.Failure
  | 0 => .raised e
  | n + 1 => .through (wrapped e n)

theorem Lua.Failure.classify_wrapped (e : ScriptError) (n : Nat) :
    (wrapped e n).classify = e.crossed := by
  induction n with
  | zero => rfl
  | succ n ih => rw [wrapped, classify_through, ih]

namespace Bridge
open Lua

/-- A call of a host function fails when its arguments do not go out, when the function fails, and when
its result does not go in. -/
theorem callHost_error {host : Host} {fuel : Nat} {b b' : Bridge} {id : SessionId} {f : HostFn}
    {args : List Datum} {e : ScriptError}
    (h : callHost host (fuel + 1) b id f args = some (.error e, b')) :
    (b.outwardAll id args).1 = .error e ∨ ∃ vs b₁, b.outwardAll id args = (.ok vs, b₁) ∧
      ((∃ b₂, serve host fuel b₁ id f vs = some (.error e, b₂)) ∨
        ∃ v b₂, serve host fuel b₁ id f vs = some (.ok v, b₂) ∧ (b₂.inward id v).1 = .error e) := by
  simp only [callHost] at h
  rcases houts : b.outwardAll id args with ⟨x | vs, b₁⟩
  · simp only [houts] at h
    cases h
    exact .inl rfl
  · refine .inr ⟨vs, b₁, rfl, ?_⟩
    simp only [houts] at h
    split at h
    · cases h
    · next x b₂ hserve =>
      cases h
      exact .inl ⟨b₂, hserve⟩
    · next v b₂ hserve =>
      simp only [Option.some.injEq, Prod.mk.injEq] at h
      exact .inr ⟨v, b₂, hserve, h.1⟩

/-- Arguments that do not go out, as long as the session is there. -/
theorem outwardAll_marshal {b : Bridge} {id : SessionId} (hid : (b.find? id).isSome) {args : List Datum}
    {e : ScriptError} (h : (b.outwardAll id args).1 = .error e) : e.kind = .marshal := by
  obtain ⟨s, hs⟩ := Option.isSome_iff_exists.mp hid
  obtain ⟨-, -, -, -, hreceived⟩ := outwardAll_received hs args
  rw [h] at hreceived
  exact hreceived.1

/-- A result that does not go in. -/
theorem inward_refuses {b : Bridge} {id : SessionId} {s : Session} (hs : b.find? id = some s) {v : Value}
    {e : ScriptError} (h : (b.inward id v).1 = .error e) : s.Refuses e := by
  simp only [inward, hs] at h
  split at h
  · next x hx =>
    cases h
    exact Session.decided_refuses (s.inward_decided v) hx
  · cases h

def protects : Frame → Bool
  -- whether what is thrown goes no further, or not at once
  | .call _ _ => false
  | .guard _ _ => true
  | .closing _ => true
  | .resumed _ _ => true
  | .asleep _ _ _ => false

def Unprotected (stack : List Frame) : Prop := ∀ frame ∈ stack, protects frame = false

theorem unwind_unprotected {stack : List Frame} (hstack : Unprotected stack) (e : Thrown) (h : Heap) :
    Machine.unwind e h stack = .failed e h := by
  induction stack with
  | nil => rfl
  | cons frame rest ih =>
    obtain ⟨hfirst, hrest⟩ := List.forall_mem_cons.mp hstack
    cases frame with
    | call k place => exact ih hrest
    | guard handler k => cases hfirst
    | closing d => cases hfirst
    | resumed t k => cases hfirst
    | asleep t k frames => exact ih hrest

/-- What was thrown leaves the run: there is no protected call, and whatever is closed on the way returns. -/
inductive Uncaught (host : Host) (id : SessionId) (x : Thrown) : RunState → Prop
  | failing {fuel : Nat} {b : Bridge} {h : Heap} {stack : List Frame} (hstack : Unprotected stack) :
      Uncaught host id x ⟨fuel, b, ⟨.throw x h, stack⟩⟩
  | closing {n fuel fuel' : Nat} {b b' : Bridge} {h h' : Heap} {calls stack : List Frame} {d : Datum}
      (hcalls : Unprotected calls)
      (hreturns : (RunState.mk fuel b ⟨.throw x h, calls ++ .closing d :: stack⟩).turns host id n =
        some ⟨fuel', b', ⟨.throw x h', stack⟩⟩)
      (hrest : Uncaught host id x ⟨fuel', b', ⟨.throw x h', stack⟩⟩) :
      Uncaught host id x ⟨fuel, b, ⟨.throw x h, calls ++ .closing d :: stack⟩⟩

theorem Uncaught.drive {host : Host} {id : SessionId} {x : Thrown} {s : RunState}
    (hs : Uncaught host id x s) : ∃ h b, s.drive host id = some (.error x, h, b) := by
  induction hs with
  | @failing fuel b h stack hstack =>
    have hfailed : (⟨.throw x h, stack⟩ : Machine).advance = .failed x h := unwind_unprotected hstack x h
    simp only [RunState.drive, Bridge.drive, hfailed]
    exact ⟨_, _, rfl⟩
  | closing hcalls hreturns hrest ih =>
    rw [RunState.drive_turns hreturns]
    exact ih

def thrown (e : ScriptError) (h : Heap) : Thrown := .value (.failure h.serial.1 (.through (.raised e)))

def RunState.begin (fuel : Nat) (b : Bridge) (id : SessionId) (machine : Heap → Machine) : RunState :=
  let taken := (b.enterRun id).takeHeap id
  ⟨fuel, taken.2, machine taken.1⟩

structure Exposed (host : Host) (id : SessionId) (s t : RunState) (f : HostFn) (args : List Datum)
    (h : Heap) (stack : List Frame) : Prop where
  reached : ∃ n, s.turns host id n = some t
  calls : t.machine.advance = .host f args h stack
  uncaught : ∀ x b, callHost host t.fuel (t.bridge.putHeap id h) id f args = some (.error x, b) →
    Uncaught host id (thrown x (b.takeHeap id).1) (.answered (t.fuel - 1) b id stack (.error x))

section
variable {host : Host} {id : SessionId} {e : ScriptError}

theorem drive_exposed {s t : RunState} {f : HostFn} {args : List Datum} {h : Heap} {stack : List Frame}
    (hexposed : Exposed host id s t f args h stack) {b : Bridge}
    (hfail : callHost host t.fuel (t.bridge.putHeap id h) id f args = some (.error e, b)) :
    ∃ n h' b', s.drive host id =
      some (.error (.value (.failure n (.through (.raised e)))), h', b') := by
  obtain ⟨n, hturns⟩ := hexposed.reached
  have huncaught := hexposed.uncaught e b hfail
  rw [RunState.drive_turns hturns]
  obtain ⟨fuel, b₀, m⟩ := t
  cases fuel with
  | zero => simp [callHost] at hfail
  | succ fuel =>
    have hturn : (RunState.mk (fuel + 1) b₀ m).turn host id =
        some (.answered fuel b id stack (.error e)) := by
      have hcalls : m.advance = .host f args h stack := hexposed.calls
      have hfailed : callHost host (fuel + 1) (b₀.putHeap id h) id f args = some (.error e, b) := hfail
      simp only [RunState.turn, hcalls, hfailed, Option.map_some]
    rw [RunState.drive_turn hturn]
    obtain ⟨h', b', hdriven⟩ := huncaught.drive
    exact ⟨_, h', b', hdriven⟩

/-- The error comes out of the run rebuilt. -/
theorem run_exposed {fuel : Nat} {b b₁ : Bridge} {machine : Heap → Machine} {t : RunState} {f : HostFn}
    {args : List Datum} {h : Heap} {stack : List Frame}
    (hexposed : Exposed host id (.begin fuel b id machine) t f args h stack)
    (hfail : callHost host t.fuel (t.bridge.putHeap id h) id f args = some (.error e, b₁)) :
    ∃ b', run host (fuel + 2) b id machine = some (.error e.crossed, b') := by
  obtain ⟨n, h', b', hdrive⟩ := drive_exposed hexposed hfail
  simp only [RunState.drive, RunState.begin] at hdrive
  refine ⟨b'.putHeap id h', ?_⟩
  simp only [run, hdrive, explain, plainError?, Failure.classify, answer]

end

inductive Entry where
  | execute (source chunk : String)
  | callGlobal (name : String) (args : List Value)
  | invoke (handle : Handle) (args : List Value)
  | getGlobal (name : String)
  | setGlobal (name : String) (v : Value)

namespace Entry

def run (host : Host) (fuel : Nat) (b : Bridge) : Entry → Answer Value
  | .execute source chunk => b.executeNamed host fuel source chunk
  | .callGlobal name args => b.callGlobal host fuel name args
  | .invoke handle args => b.invokeLive host fuel handle args
  | .getGlobal name => b.getGlobal host fuel name
  | .setGlobal name v => (b.setGlobal host fuel name v).map fun r => (unitValue r.1, r.2)

def ofRequest? (b : Bridge) : Request → Option Entry
  -- what a host function asks of its bridge, where that runs a script
  | .execute source => some (.execute source b.config.chunkName)
  | .callGlobal name args => some (.callGlobal name args)
  | .invoke handle args => if b.isLive handle then some (.invoke handle args) else none
  | .getGlobal name => some (.getGlobal name)
  | .setGlobal name v => some (.setGlobal name v)
  | _ => none

inductive Begins (host : Host) :
    Entry → Nat → Bridge → Nat → Bridge → SessionId → (Heap → Machine) → Prop
  | execute {fuel : Nat} {b : Bridge} {s : Session} {source chunk : String} {f : Datum} {h : Heap}
      (hfree : b.busy = false) (hs : b.session = some s)
      (hload : s.heap.load source.toUTF8 chunk = .ok (f, h)) :
      Begins host (.execute source chunk) (fuel + 2) b
        fuel (({ b with busy := true } : Bridge).putHeap s.id h) s.id (.start f [])
  | reading {fuel : Nat} {b : Bridge} {s : Session} {name : String} {args : List Value}
      (hfree : b.busy = false) (hs : b.session = some s) :
      Begins host (.callGlobal name args) (fuel + 1) b fuel { b with busy := true } s.id (.reading name)
  | callGlobal {fuel : Nat} {b b₁ b₂ : Bridge} {s : Session} {name : String} {args : List Value}
      {a : Nat} {ds : List Datum} (hfree : b.busy = false) (hs : b.session = some s)
      (hread : Bridge.run host (fuel + 2) { b with busy := true } s.id (.reading name) =
        some (.ok (.function a), b₁))
      (hargs : b₁.inwardAll s.id args = (.ok ds, b₂)) :
      Begins host (.callGlobal name args) (fuel + 3) b fuel b₂ s.id (.start (.function a) ds)
  | invoke {fuel : Nat} {b b₁ : Bridge} {s : Session} {handle : Handle} {args : List Value} {f : Datum}
      {ds : List Datum} (hfree : b.busy = false) (hs : b.session = some s)
      (hf : Crossing.resolve s.id s.pins handle = .ok f)
      (hargs : ({ b with busy := true } : Bridge).inwardAll s.id args = (.ok ds, b₁)) :
      Begins host (.invoke handle args) (fuel + 3) b fuel b₁ s.id (.start f ds)
  | getGlobal {fuel : Nat} {b : Bridge} {s : Session} {name : String} (hs : b.session = some s) :
      Begins host (.getGlobal name) (fuel + 2) b fuel b s.id (.reading name)
  | setGlobal {fuel : Nat} {b b₁ : Bridge} {s : Session} {name : String} {v : Value} {d : Datum}
      (hs : b.session = some s) (hv : b.inward s.id v = (.ok d, b₁)) :
      Begins host (.setGlobal name v) (fuel + 1) b fuel b₁ s.id (.writing name d)

variable {host : Host} {e : ScriptError}

theorem runOutward_error {fuel : Nat} {b b₁ : Bridge} {id : SessionId} {machine : Heap → Machine}
    (h : Bridge.run host fuel b id machine = some (.error e, b₁)) :
    runOutward host (fuel + 1) b id machine = some (.error e, b₁.leaveRun id) := by
  simp only [runOutward, h]

theorem callWith_error {fuel : Nat} {b b₁ b₂ : Bridge} {id : SessionId} {f : Datum} {args : List Value}
    {ds : List Datum} (hargs : b.inwardAll id args = (.ok ds, b₁))
    (h : Bridge.run host fuel b₁ id (.start f ds) = some (.error e, b₂)) :
    callWith host (fuel + 2) b id f args = some (.error e, b₂.leaveRun id) := by
  simp only [callWith, hargs, runOutward_error h]

/-- The error of the run is the error of the call. -/
theorem begins_error {entry : Entry} {fuel fuel₁ : Nat} {b b₁ b₂ : Bridge} {id : SessionId}
    {machine : Heap → Machine} (hbegins : entry.Begins host fuel b fuel₁ b₁ id machine)
    (h : Bridge.run host fuel₁ b₁ id machine = some (.error e, b₂)) :
    ∃ b', entry.run host fuel b = some (.error e, b') := by
  cases hbegins with
  | execute hfree hs hload =>
    rw [run, executeNamed, guarded_open hs hfree]
    simp only [hload, runOutward_error h, Option.map_some]
    exact ⟨_, rfl⟩
  | reading hfree hs =>
    rw [run, Bridge.callGlobal, guarded_open hs hfree]
    simp only [h, Option.map_some]
    exact ⟨_, rfl⟩
  | callGlobal hfree hs hread hargs =>
    rw [run, Bridge.callGlobal, guarded_open hs hfree]
    simp only [hread, callWith_error hargs h, Option.map_some]
    exact ⟨_, rfl⟩
  | invoke hfree hs hf hargs =>
    rw [run, invokeLive, guarded_open hs hfree]
    simp only [hf, callWith_error hargs h, Option.map_some]
    exact ⟨_, rfl⟩
  | getGlobal hs =>
    simp only [run, Bridge.getGlobal, withSession, hs, runOutward_error h]
    exact ⟨_, rfl⟩
  | setGlobal hs hv =>
    simp only [run, Bridge.setGlobal, withSession, hs, hv, h, Option.map_some, Except.map, unitValue]
    exact ⟨_, rfl⟩

theorem reply_entry {r : Request} {entry : Entry} {b : Bridge} (h : ofRequest? b r = some entry)
    (fuel : Nat) : reply host (fuel + 1) b r = entry.run host fuel b := by
  cases r with
  | invoke handle args =>
    by_cases hlive : b.isLive handle = true
    · simp only [ofRequest?, hlive, if_true, Option.some.injEq] at h
      simp only [reply, hlive, if_true, ← h, run]
    · simp [ofRequest?, hlive] at h
  | execute source =>
    obtain rfl := Option.some.inj h
    rfl
  | callGlobal name args =>
    obtain rfl := Option.some.inj h
    rfl
  | getGlobal name =>
    obtain rfl := Option.some.inj h
    rfl
  | setGlobal name v =>
    obtain rfl := Option.some.inj h
    rfl
  | _ => cases h

end Entry

inductive Follows (host : Host) : Nat → Bridge → HostAction → Nat → Bridge → HostAction → Prop
  | refl (fuel : Nat) (b : Bridge) (action : HostAction) : Follows host fuel b action fuel b action
  | step {fuel fuel' : Nat} {b b₁ b' : Bridge} {r : Request} {next : Except ScriptError Value → HostAction}
      {x : Except ScriptError Value} {action : HostAction} (hreply : reply host fuel b r = some (x, b₁))
      (hrest : Follows host fuel b₁ (next x) fuel' b' action) :
      Follows host (fuel + 1) b (.ask r next) fuel' b' action

theorem follows_eq {host : Host} {fuel fuel' : Nat} {b b' : Bridge} {action action' : HostAction}
    (h : Follows host fuel b action fuel' b' action') :
    follow host fuel b action = follow host fuel' b' action' := by
  induction h with
  | refl fuel b action => rfl
  | step hreply _ ih => simp only [follow, hreply, ih]

/-- The error of a host function leaves a run through so many others: the last function raises it, and
each other began the run that the error leaves next, fails with what it gets from there, and was itself
called where nothing catches its failure. -/
inductive Escapes (host : Host) (e : ScriptError) :
    Nat → Nat → Bridge → SessionId → (Heap → Machine) → Prop
  | raised {fuel : Nat} {b b₁ : Bridge} {id : SessionId} {machine : Heap → Machine} {t : RunState}
      {f : HostFn} {args : List Datum} {h : Heap} {stack : List Frame}
      (hexposed : Exposed host id (.begin fuel b id machine) t f args h stack)
      (hfail : callHost host t.fuel (t.bridge.putHeap id h) id f args = some (.error e, b₁)) :
      Escapes host e 0 (fuel + 2) b id machine
  | passed {n fuel fuel₀ fuel₁ fuel₂ : Nat} {b b₀ b₁ b₂ b₃ : Bridge} {id id₂ : SessionId}
      {machine machine₂ : Heap → Machine} {name : String} {ports : Nat} {args : List Datum} {h : Heap}
      {m : Machine} {stack : List Frame} {vs : List Value} {r : Request}
      {next : Except ScriptError Value → HostAction} {entry : Entry}
      (hexposed : Exposed host id (.begin fuel b id machine) ⟨fuel₀ + 2, b₀, m⟩
        (.custom name ports) args h stack)
      (hargs : (b₀.putHeap id h).outwardAll id args = (.ok vs, b₁))
      (hfollows : Follows host fuel₀ b₁ (host name vs) (fuel₁ + 2) b₂ (.ask r next))
      (hpasses : ∀ x, next (.error x) = .fail x)
      (hentry : Entry.ofRequest? b₂ r = some entry)
      (hbegins : entry.Begins host fuel₁ b₂ fuel₂ b₃ id₂ machine₂)
      (hinner : Escapes host e n fuel₂ b₃ id₂ machine₂) :
      Escapes host e (n + 1) (fuel + 2) b id machine

/-- Through however many runs it goes, the error comes out as the first of them makes it. -/
theorem escapes_error {host : Host} {e : ScriptError} {n fuel : Nat} {b : Bridge} {id : SessionId}
    {machine : Heap → Machine} (h : Escapes host e n fuel b id machine) :
    ∃ b', run host fuel b id machine = some (.error e.crossed, b') := by
  induction h with
  | raised hexposed hfail => exact run_exposed hexposed hfail
  | @passed n fuel fuel₀ fuel₁ fuel₂ b b₀ b₁ b₂ b₃ id id₂ machine machine₂ name ports args h m stack vs
      r next entry hexposed hargs hfollows hpasses hentry hbegins hinner ih =>
    obtain ⟨b₄, hrun⟩ := ih
    obtain ⟨b₅, hentered⟩ := Entry.begins_error hbegins hrun
    have hreply : reply host (fuel₁ + 1) b₂ r = some (.error e.crossed, b₅) :=
      (Entry.reply_entry hentry fuel₁).trans hentered
    have hserve : serve host (fuel₀ + 1) b₁ id (.custom name ports) vs =
        some (.error e.crossed, b₅) := by
      simp only [serve, follows_eq hfollows, follow, hreply, hpasses, answer]
    have hfail : callHost host (fuel₀ + 2) (b₀.putHeap id h) id (.custom name ports) args =
        some (.error e.crossed, b₅.unpinSince (b₀.putHeap id h)) := by
      simp only [callHost, hargs, hserve]
    rw [← e.crossed_crossed]
    exact run_exposed hexposed hfail

theorem crossed_kept (e : ScriptError) : e.Kept e.crossed :=
  ⟨e.crossed_message, e.crossed_kind, e.crossed_crossed⟩

/-- However often an error of a host function was wrapped, and through however many runs it went without
being caught, the host gets it back with its text and its kind.  Arguments and results that do not cross
are such errors of a call, of kind marshal unless a result did not fit in a limited memory. -/
theorem host_error_kept (host : Host) (e : ScriptError) :
    (∀ n, e.Kept (Failure.wrapped e n).classify) ∧
    (∀ n entry fuel b fuel₁ b₁ id machine, Entry.Begins host entry fuel b fuel₁ b₁ id machine →
      Escapes host e n fuel₁ b₁ id machine →
        ∃ x b', entry.run host fuel b = some (.error x, b') ∧ e.Kept x) ∧
    ∀ fuel b b' id f args, callHost host (fuel + 1) b id f args = some (.error e, b') →
      (b.outwardAll id args).1 = .error e ∧ ((b.find? id).isSome → e.kind = .marshal) ∨
      ∃ vs b₁, b.outwardAll id args = (.ok vs, b₁) ∧
        ((∃ b₂, serve host fuel b₁ id f vs = some (.error e, b₂)) ∨
          ∃ v b₂, serve host fuel b₁ id f vs = some (.ok v, b₂) ∧ (b₂.inward id v).1 = .error e ∧
            ∀ s, b₂.find? id = some s → s.Refuses e) := by
  refine ⟨fun n => ?_, ?_, ?_⟩
  · rw [Failure.classify_wrapped]
    exact crossed_kept e
  · intro n entry fuel b fuel₁ b₁ id machine hbegins hescapes
    obtain ⟨b₂, hrun⟩ := escapes_error hescapes
    obtain ⟨b', hentry⟩ := Entry.begins_error hbegins hrun
    exact ⟨e.crossed, b', hentry, crossed_kept e⟩
  · intro fuel b b' id f args hfail
    rcases callHost_error hfail with hargs | ⟨vs, b₁, hargs, hraised | ⟨v, b₂, hserve, hresult⟩⟩
    · exact .inl ⟨hargs, fun hid => outwardAll_marshal hid hargs⟩
    · exact .inr ⟨vs, b₁, hargs, .inl hraised⟩
    · exact .inr ⟨vs, b₁, hargs, .inr ⟨v, b₂, hserve, hresult, fun s hs => inward_refuses hs hresult⟩⟩

def searching : Host := fun name _ =>
  if name = "search" then .answer (.getGlobal "found") else .fail (.file .notFound)

def searched : Option Bridge :=
  (setGlobal searching 9 (.start 0 .standard) "search" (.function (.custom "search" 0))).bind fun r =>
  (setGlobal searching 9 r.2 "open" (.function (.custom "open" 1))).bind fun r =>
  (executeNamed searching 99 r.2
    "setmetatable(_G, {__index = function(t, k) return open() end})" "setup").map (·.2)

def hostCall? : Turn → Option (HostFn × List Datum × Heap × List Frame)
  | .host f args h stack => some (f, args, h, stack)
  | _ => none

theorem exposed_turn {host : Host} {id : SessionId} {s t : RunState} {n : Nat}
    {call : HostFn × List Datum × Heap × List Frame} (hturns : s.turns host id n = some t)
    (hcall : hostCall? t.machine.advance = some call)
    (hstack : (call.2.2.2.all fun frame => !protects frame) = true) :
    Exposed host id s t call.1 call.2.1 call.2.2.1 call.2.2.2 where
  reached := ⟨n, hturns⟩
  calls := by
    unfold hostCall? at hcall
    split at hcall
    · next heq =>
      obtain rfl := Option.some.inj hcall
      exact heq
    · cases hcall
  uncaught _ _ _ := .failing (by simpa [Unprotected] using hstack)

/-- A missing file, out of a run in a run. -/
theorem missing_file_kept : ∃ b x b', searched = some b ∧
    (Entry.execute "return search()" "c").run searching 54 b = some (.error x, b') ∧
    x.kind = .runtime ∧ x.message = "No such file or directory (os error 2)" := by
  have hrun : (searched.bind fun b => b.session.bind fun s =>
      (s.heap.load "return search()".toUTF8 "c").toOption.bind fun r =>
      ((RunState.begin 50 (({ b with busy := true } : Bridge).putHeap s.id r.2) s.id
        (.start r.1 [])).turns searching s.id 1).bind fun t =>
      (hostCall? t.machine.advance).bind fun call =>
      (t.bridge.putHeap s.id call.2.2.1).session.bind fun s₂ =>
      ((RunState.begin 41 (t.bridge.putHeap s.id call.2.2.1) s₂.id
        (.reading "found")).turns searching s₂.id 1).bind fun t₂ =>
      (hostCall? t₂.machine.advance).map fun call₂ =>
        decide (b.busy = false ∧ t.fuel = 49 ∧ t₂.fuel = 40 ∧
          call.1 = .custom "search" 0 ∧ call.2.1 = [] ∧ call.2.2.2.all (!protects ·) = true ∧
          call₂.1 = .custom "open" 1 ∧ call₂.2.1 = [] ∧ call₂.2.2.2.all (!protects ·) = true)) =
      some true := by
    decide +kernel
  obtain ⟨b, hb, hrun⟩ := Option.bind_eq_some_iff.mp hrun
  obtain ⟨s, hs, hrun⟩ := Option.bind_eq_some_iff.mp hrun
  obtain ⟨⟨f, h⟩, hload, hrun⟩ := Option.bind_eq_some_iff.mp hrun
  obtain ⟨⟨fuel, b₀, m⟩, hturns, hrun⟩ := Option.bind_eq_some_iff.mp hrun
  obtain ⟨⟨g, args, h₁, stack⟩, hcall, hrun⟩ := Option.bind_eq_some_iff.mp hrun
  obtain ⟨s₂, hs₂, hrun⟩ := Option.bind_eq_some_iff.mp hrun
  obtain ⟨⟨fuel₂, b₂, m₂⟩, hturns₂, hrun⟩ := Option.bind_eq_some_iff.mp hrun
  obtain ⟨⟨g₂, args₂, h₂, stack₂⟩, hcall₂, hrun⟩ := Option.map_eq_some_iff.mp hrun
  obtain ⟨hfree, rfl, rfl, rfl, rfl, hstack, rfl, rfl, hstack₂⟩ := of_decide_eq_true hrun
  have hloaded : s.heap.load "return search()".toUTF8 "c" = .ok (f, h) := by
    cases hl : s.heap.load "return search()".toUTF8 "c" with
    | error e =>
      rw [hl] at hload
      cases hload
    | ok r =>
      rw [hl] at hload
      exact congrArg Except.ok (Option.some.inj hload)
  have hinner : Escapes searching (.file .notFound) 0 43 (b₀.putHeap s.id h₁) s₂.id
      (.reading "found") := .raised (exposed_turn hturns₂ hcall₂ hstack₂) rfl
  have houter : Escapes searching (.file .notFound) 1 52
      (({ b with busy := true } : Bridge).putHeap s.id h) s.id (.start f []) :=
    .passed (exposed_turn hturns hcall hstack) rfl (.refl _ _ _) (fun _ => rfl) rfl (.getGlobal hs₂) hinner
  obtain ⟨x, b', hx, hkept⟩ := (host_error_kept searching (.file .notFound)).2.1 1 _ 54 b 52 _ s.id _
    (.execute hfree hs hloaded) houter
  exact ⟨b, x, b', hb, hx, hkept.kind, hkept.message⟩

end Bridge

end ScriptHost
