import ScriptHost.Proofs.Bridge.Globals
import ScriptHost.Proofs.Bridge.Operations
import ScriptHost.Proofs.Crossing.Refusal

/-!
# Values that a bridge refuses

What the host sends is made into data before anything else is done with it.  So a value that cannot go in
leaves the bridge as it was: the global variable is not set, and no function is run.  Only reading the
global that is to be called comes first, and that may run a metamethod.
-/

set_option autoImplicit false

namespace ScriptHost.Bridge
open Lua

theorem update_none {b : Bridge} {id : SessionId} {f : Session → Session}
    (hf : ∀ s ∈ b.sessions, s.id = id → f s = s) : b.update id f = b := by
  have hchange : ∀ s ∈ b.sessions, (if s.id = id then f s else s) = s := by
    intro s hs
    split
    · next hid => exact hf s hs hid
    · rfl
  have hopen : b.session.map (fun s => if s.id = id then f s else s) = b.session := by
    cases hs : b.session with
    | none => rfl
    | some s => rw [Option.map_some, hchange s (mem_open hs)]
  have hleft : b.lingering.map (fun s => if s.id = id then f s else s) = b.lingering :=
    (List.map_congr_left fun s hs => hchange s (List.mem_append_right _ hs)).trans (List.map_id _)
  simp only [update, hopen, hleft]

@[simp] theorem update_update (b : Bridge) (id : SessionId) {f : Session → Session}
    (hf : ∀ s, (f s).id = s.id) (g : Session → Session) :
    (b.update id f).update id g = b.update id fun s => g (f s) := by
  have htwice : (fun s : Session => if s.id = id then g s else s) ∘
      (fun s => if s.id = id then f s else s) = fun s => if s.id = id then g (f s) else s := by
    funext s
    by_cases hs : s.id = id
    · simp only [Function.comp_apply, if_pos hs, hf s]
    · simp only [Function.comp_apply, if_neg hs]
  simp only [update, Option.map_map, List.map_map, htwice]

section
variable {b : Bridge} (hb : b.Sound)
include hb

theorem leave_entered (id : SessionId) : (b.enterRun id).leaveRun id = b := by
  have hback : (b.enterRun id).update id (fun s => { s with runs := s.runs - 1 }) = b := by
    rw [enterRun, update_update]
    · exact update_none fun _ _ _ => rfl
    · exact fun _ => rfl
  have hrunning : b.lingering.filter (fun s => s.runs ≠ 0) = b.lingering :=
    List.filter_eq_self.mpr fun s hs => by simpa using hb.running s hs
  simp only [leaveRun, hback, hrunning]

theorem putHeap_same {s : Session} (hs : s ∈ b.sessions) : b.putHeap s.id s.heap = b := by
  apply update_none
  intro t ht hid
  obtain rfl := sound_unique hb ht hs hid
  rfl

end

/-- The heap that a run leaves is put where it took one. -/
theorem heap_left (b : Bridge) (id : SessionId) (h : Heap) :
    ((b.enterRun id).putHeap id default).putHeap id h = (b.putHeap id h).enterRun id := by
  simp only [putHeap, enterRun]
  rw [update_update, update_update, update_update]
  all_goals exact fun _ => rfl

/-- A run that ends at once. -/
theorem run_ends {b : Bridge} {s : Session} (hs : b.session = some s) (host : Host) (fuel : Nat)
    {machine : Heap → Machine} {values : List Datum} {h : Heap}
    (hm : machine s.heap = ⟨.finish values h, []⟩) :
    run host (fuel + 2) b s.id machine =
      some (.ok (firstValue values), (b.putHeap s.id h).enterRun s.id) := by
  have htake := takeHeap_open (enterRun_open hs)
  simp only [run, htake, hm, drive, Machine.advance, answer, heap_left]

/-- A run that runs out of memory at once. -/
theorem run_starves {b : Bridge} {s : Session} (hs : b.session = some s) (host : Host) (fuel : Nat)
    {machine : Heap → Machine} {h : Heap} (hm : machine s.heap = ⟨.throw .memory h, []⟩) :
    run host (fuel + 2) b s.id machine =
      some (.error .outOfMemory, (b.putHeap s.id h).enterRun s.id) := by
  have htake := takeHeap_open (enterRun_open hs)
  simp only [run, htake, hm, drive, Machine.advance, Machine.unwind, explain, plainError?, answer,
    heap_left]

section
variable {b : Bridge} {s : Session} {e : ScriptError}

theorem callWith_refused (host : Host) (fuel : Nat) (f : Datum) {id : SessionId}
    (hs : b.find? id = some s) {args : List Value} (hrefused : s.inwardAll args = .error e) :
    callWith host (fuel + 1) b id f args = some (.error e, b) := by
  simp only [callWith, inwardAll, hs, hrefused, answer]

variable (hs : b.session = some s)
include hs

theorem setGlobal_refused (host : Host) (fuel : Nat) (name : String) {v : Value}
    (hrefused : s.inward v = .error e) :
    setGlobal host (fuel + 1) b name v = some (.error e, b) := by
  simp [setGlobal, withSession, hs, inward, hrefused, answer]

variable (hfree : b.busy = false)
include hfree

theorem invoke_refused (host : Host) (fuel : Nat) (elsewhere : Handle → Bool) {handle : Handle}
    {f : Datum} (hf : Crossing.resolve s.id s.pins handle = .ok f) (hid : handle.session = s.id)
    {args : List Value} (hrefused : s.inwardAll args = .error e) :
    b.invoke host (fuel + 2) elsewhere handle args = some (.error e, b) := by
  have hlive : b.isLive handle = true := by simp [isLive, hid, hs]
  have hopen : ({ b with busy := true } : Bridge).session = some s := hs
  have hcall := callWith_refused host fuel f (find_open hopen) hrefused
  rw [invoke, hlive, Bool.true_or, if_pos rfl, invokeLive, guarded_open hs hfree]
  simp only [hf, hcall, Option.map_some, busy_back hfree]

/-- Whatever reading the global does, the function that it brings is not called. -/
theorem callGlobal_read (host : Host) (fuel : Nat) (name : String) {args : List Value} {a : Nat}
    {b₁ : Bridge} {s₁ : Session}
    (hread : run host fuel { b with busy := true } s.id (.reading name) = some (.ok (.function a), b₁))
    (hs₁ : b₁.find? s.id = some s₁)
    (hrefused : s₁.inwardAll args = .error e) :
    callGlobal host (fuel + 1) b name args = some (.error e, (b₁.leaveRun s.id).leave) := by
  cases fuel with
  | zero => simp [run] at hread
  | succ fuel =>
    have hcall := callWith_refused host fuel (.function a) hs₁ hrefused
    rw [callGlobal, guarded_open hs hfree]
    simp only [hread, hcall, Option.map_some]

/-- A function that stands in the table of globals is read without running anything; in a limited memory
that alone may fail. -/
theorem callGlobal_refused (hb : b.Sound) (host : Host) (fuel : Nat) (name : String)
    {args : List Value} {a : Nat} (hglobal : s.heap.getGlobal name = .function a)
    (hunheld : ∃ x ∈ Value.itemHandles args, ¬ s.Holds x) :
    ∃ e n, s.Refuses e ∧ callGlobal host (fuel + 3) b name args =
      some (.error e, b.putHeap s.id (s.heap.spending n)) ∧ (s.heap.Unlimited → n = s.heap.spent) := by
  have hopen : ({ b with busy := true } : Bridge).session = some s := hs
  have hleft : ∀ n : Nat, (((({ b with busy := true } : Bridge).putHeap s.id
      (s.heap.spending n)).enterRun s.id).leaveRun s.id).leave = b.putHeap s.id (s.heap.spending n) := by
    intro n
    have hbusy : ({ b with busy := true } : Bridge).Sound := { hb with }
    rw [leave_entered (sound_putHeap hbusy s.id _)]
    exact busy_back (b := b.putHeap s.id (s.heap.spending n)) hfree
  obtain hnone | ⟨n, hclaim, hsame⟩ := Heap.claim_spends s.heap (stringSize name.toUTF8.size)
  · have hreading : Machine.reading name s.heap = ⟨.throw .memory s.heap, []⟩ := by
      rw [Machine.reading, build, claim, hnone.2]
    have hread := run_starves hopen host fuel hreading
    refine ⟨.outOfMemory, s.heap.spent, .inr ⟨hnone.1, rfl⟩, ?_, fun _ => rfl⟩
    rw [callGlobal, guarded_open hs hfree]
    simp only [hread, Option.map_some]
    rw [← hleft]
    rfl
  · have hthere : (s.heap.spending n).getGlobal name = .function a := hglobal
    have hread := run_ends hopen host fuel
      (Machine.reading_plain hclaim (.inl (by rw [hthere]; rfl)))
    rw [hthere] at hread
    have hentered : ((({ b with busy := true } : Bridge).putHeap s.id (s.heap.spending n)).enterRun
        s.id).session = some { s with runs := s.runs + 1, heap := s.heap.spending n } :=
      enterRun_open (putHeap_open hopen _)
    have hfound := find_open hentered
    have hpins : Session.Sound { s with runs := s.runs + 1, heap := s.heap.spending n } :=
      { hb.pins s (mem_open hs) with }
    obtain ⟨e, hrefuses, hrefused⟩ :=
      Session.decided_refused hpins (Session.inwardAll_decided _ args) hunheld
    refine ⟨e, n, hrefuses, ?_, hsame⟩
    rw [callGlobal_read hs hfree host (fuel + 2) name hread hfound hrefused, hleft]

end

/-- The session that a run was entered in is still there, and no old function came back to it. -/
theorem run_unheld {b b₁ : Bridge} (hb : b.Sound) {s : Session} (hs : b.session = some s) {host : Host}
    {fuel : Nat} {machine : Heap → Machine} {r : Except ScriptError Datum}
    (h : run host fuel b s.id machine = some (r, b₁)) :
    ∃ s₁, b₁.find? s.id = some s₁ ∧ s₁.Sound ∧ s₁.id = s.id ∧ ∀ handle : Handle,
      (handle.session = s.id → handle.slot < s.nextSlot) → ¬ s.Holds handle → ¬ s₁.Holds handle := by
  have hentered : (b.enterRun s.id).session = some { s with runs := s.runs + 1 } :=
    enterRun_open hs
  have hsound := sound_enterRun hb s.id
  obtain ⟨hsound₁, hlater⟩ := (runs_lead later_steady host fuel).run b s.id machine r b₁ h hsound
  obtain ⟨s₁, hs₁, hid⟩ := hlater.running _ (mem_open hentered) (Nat.succ_ne_zero _)
  have hfind : b₁.find? s.id = some s₁ := hid ▸ find_of_mem hsound₁ hs₁
  refine ⟨s₁, hfind, hsound₁.pins s₁ hs₁, hid, fun handle hissued hheld => ?_⟩
  rcases hlater.kept s₁ hs₁ with ⟨t, ht, hkeeps⟩ | ⟨hopening, -⟩
  · obtain rfl := sound_unique hsound ht (mem_open hentered) (hkeeps.id.symm.trans hid)
    exact Session.keeps_unheld hkeeps hissued hheld
  · have hbound := (hsound.named _ (mem_open hentered)).2
    rw [hid] at hopening
    exact absurd hbound (Nat.not_lt.mpr hopening)

theorem holds_args {s : Session} {v : Value} {args : List Value} (hmem : v ∈ args)
    (h : ∃ x ∈ v.handles, ¬ s.Holds x) : ∃ x ∈ Value.itemHandles args, ¬ s.Holds x := by
  obtain ⟨x, hx, hheld⟩ := h
  rw [Value.itemHandles_eq]
  exact ⟨x, List.mem_flatMap.mpr ⟨v, hmem, hx⟩, hheld⟩

/-- A value that goes in names only functions that the session holds, and where memory is not limited every
such value goes in.  Otherwise it is not set as a global variable, and among the arguments of a call it stops
the call before the function is run: nothing of the bridge changes then but the count of bytes, or by a
metamethod that reading the global runs. -/
theorem inward_all_or_nothing {b : Bridge} (hb : b.Sound) {s : Session} (hs : b.session = some s)
    (_ : s.heap.Unfinalized) (v : Value) :
    ((∃ d s', s.inward v = .ok (d, s')) → ∀ x ∈ v.handles, s.Holds x) ∧
    (s.heap.Unlimited → (∀ x ∈ v.handles, s.Holds x) → ∃ d s', s.inward v = .ok (d, s')) ∧
    ((∃ x ∈ v.handles, ¬ s.Holds x) →
      (∃ e, s.Refuses e ∧ s.inward v = .error e ∧
        ∀ host fuel name, setGlobal host (fuel + 1) b name v = some (.error e, b)) ∧
      ∀ args, v ∈ args → b.busy = false →
        (∃ e, s.Refuses e ∧ ∀ host fuel elsewhere handle, s.Holds handle →
          b.invoke host (fuel + 2) elsewhere handle args = some (.error e, b)) ∧
        (∀ host fuel name a, s.heap.getGlobal name = .function a →
          ∃ e n, s.Refuses e ∧ callGlobal host (fuel + 3) b name args =
              some (.error e, b.putHeap s.id (s.heap.spending n)) ∧
            (s.heap.Unlimited → b.putHeap s.id (s.heap.spending n) = b)) ∧
        ((∀ x ∈ v.handles, x.session = s.id → x.slot < s.nextSlot) → ∀ host fuel name a b₁,
          run host fuel { b with busy := true } s.id (.reading name) =
              some (.ok (.function a), b₁) →
            ∃ s₁, b₁.find? s.id = some s₁ ∧ (s₁.heap.Unfinalized → ∃ e, s₁.Refuses e ∧
              callGlobal host (fuel + 1) b name args =
                some (.error e, (b₁.leaveRun s.id).leave)))) := by
  have hsound := hb.pins s (mem_open hs)
  refine ⟨fun ⟨d, s', hin⟩ => Session.decided_holds hsound (s.inward_decided v) hin,
    fun hfree => (Session.inward_iff hsound hfree v).mpr,
    fun hunheld => ⟨?_, fun args hmem hfree => ⟨?_, ?_, ?_⟩⟩⟩
  · obtain ⟨e, hrefuses, hrefused⟩ := Session.decided_refused hsound (s.inward_decided v) hunheld
    exact ⟨e, hrefuses, hrefused, fun host fuel name => setGlobal_refused hs host fuel name hrefused⟩
  · obtain ⟨e, hrefuses, hrefused⟩ :=
      Session.decided_refused hsound (s.inwardAll_decided args) (holds_args hmem hunheld)
    refine ⟨e, hrefuses, fun host fuel elsewhere handle hheld => ?_⟩
    obtain ⟨f, hf⟩ := (Session.holds_iff hsound handle).mp hheld
    exact invoke_refused hs hfree host fuel elsewhere hf hheld.1 hrefused
  · intro host fuel name a hglobal
    obtain ⟨e, n, hrefuses, hcall, hsame⟩ :=
      callGlobal_refused hs hfree hb host fuel name hglobal (holds_args hmem hunheld)
    refine ⟨e, n, hrefuses, hcall, fun hunlimited => ?_⟩
    rw [hsame hunlimited]
    exact putHeap_same hb (mem_open hs)
  · intro hissued host fuel name a b₁ hread
    obtain ⟨s₁, hfind, hsound₁, -, hstill⟩ := run_unheld { hb with } (b := { b with busy := true }) hs hread
    obtain ⟨x, hx, hheld⟩ := hunheld
    have hunheld₁ : ∃ x ∈ v.handles, ¬ s₁.Holds x := ⟨x, hx, hstill x (hissued x hx) hheld⟩
    obtain ⟨e, hrefuses, hrefused⟩ :=
      Session.decided_refused hsound₁ (s₁.inwardAll_decided args) (holds_args hmem hunheld₁)
    exact ⟨s₁, hfind, fun _ => ⟨e, hrefuses, callGlobal_read hs hfree host fuel name hread hfind hrefused⟩⟩

def halfReleased : Bridge :=
  -- a bridge that compiled two chunks for the host, which let go of the first
  (((Bridge.start 0 .standard).compile "return 1" "first").2.compile "return 2" "second").2.drop
    ⟨⟨0, 0⟩, 1⟩

theorem halfReleased_sound : halfReleased.Sound :=
  sound_drop (compile_later _ _ _ (compile_later _ _ _ (start_sound 0 .standard)).1).1 _

def buried : Value := .array [.int 1, .map [("on", .array [.callable ⟨⟨0, 0⟩, 1⟩])]]

theorem buried_refused : ∃ s, halfReleased.session = some s ∧ s.heap.Unfinalized ∧
    (∃ x ∈ buried.handles, ¬ s.Holds x) ∧ (¬ ∃ d s', s.inward buried = .ok (d, s')) ∧
    ∃ e, e.kind = .marshal ∧
      halfReleased.invoke Host.none 2 (fun _ => false) ⟨⟨0, 0⟩, 2⟩ [.nil, buried] =
        some (.error e, halfReleased) ∧
      ∃ e, e.kind = .marshal ∧
        callGlobal Host.none 3 halfReleased "type" [.nil, buried] = some (.error e, halfReleased) := by
  have hlook : halfReleased.session.map (fun s => (s.id, s.pins.map (·.slot), s.heap.getGlobal "type",
      s.heap.tables.all (·.metatable.isNone), s.heap.allocator.isNone)) =
        some (⟨0, 0⟩, [2], .function 18, true, true) := by decide +kernel
  obtain ⟨s, hs, heq⟩ := Option.map_eq_some_iff.mp hlook
  simp only [Prod.mk.injEq] at heq
  obtain ⟨hid, hslots, hglobal, hbare, hallocator⟩ := heq
  have hfree : s.heap.Unlimited := Option.isNone_iff_eq_none.mp hallocator
  have hquiet : s.heap.Unfinalized := by
    intro a m hm
    rw [Heap.without_metatables hbare a] at hm
    cases hm
  have hheld : ∀ slot, s.Holds ⟨⟨0, 0⟩, slot⟩ ↔ slot = 2 := by
    intro slot
    have hpinned : (∃ p ∈ s.pins, p.slot = slot) ↔ slot = 2 := by
      rw [← List.mem_map, hslots, List.mem_singleton]
    rw [Session.Holds, hid, and_iff_right rfl]
    exact hpinned
  have hunheld : ∃ x ∈ buried.handles, ¬ s.Holds x :=
    ⟨⟨⟨0, 0⟩, 1⟩, by decide, fun h => absurd ((hheld 1).mp h) (by decide)⟩
  have hmarshal : ∀ e, s.Refuses e → e.kind = .marshal :=
    fun e he => he.resolve_right fun hlimit => hlimit.1 hfree
  obtain ⟨hin, -, hout⟩ := inward_all_or_nothing halfReleased_sound hs hquiet buried
  obtain ⟨⟨e, he, hinvoke⟩, hcall, -⟩ :=
    (hout hunheld).2 [.nil, buried] (by simp) (by decide +kernel)
  obtain ⟨e', n, he', hcalled, hsame⟩ := hcall Host.none 0 "type" _ hglobal
  rw [hsame hfree] at hcalled
  refine ⟨s, hs, hquiet, hunheld, fun h => ?_, e, hmarshal e he,
    hinvoke _ _ _ _ ((hheld 2).mpr rfl), e', hmarshal e' he', hcalled⟩
  obtain ⟨x, hx, hnot⟩ := hunheld
  exact hnot (hin h x hx)

def noting : Option Bridge :=
  -- a bridge whose scripts answer for global variables that are nil, and note that they were asked;
  -- the function that it gave the host is released
  (executeNamed Host.none 199 (.start 0 .standard)
    "setmetatable(_G, {__index = function(t, k) asked = 1 return type end}) return type"
    "script").map fun r => r.2.release.2

/-- Reading the global that is to be called may change others, so not every refused call leaves all
globals as they were; and a limit of the memory may keep out a value that names no function at all. -/
theorem reading_changes_globals : (¬ ∀ (s : Session) (v : Value), s.Sound →
      (∀ x ∈ v.handles, s.Holds x) → ∃ d s', s.inward v = .ok (d, s')) ∧
    ¬ ∀ (b b' : Bridge) (s s' : Session) (name : String) (v : Value)
    (r : Except ScriptError Value), b.busy = false → b.session = some s →
      (∃ a b₁, run Host.none 98 { b with busy := true } s.id (.reading name) =
        some (.ok (.function a), b₁)) →
      (∃ x ∈ v.handles, ¬ s.Holds x) → callGlobal Host.none 99 b name [v] = some (r, b') →
      b'.session = some s' → ∀ g, s'.heap.getGlobal g = s.heap.getGlobal g := by
  refine ⟨fun hall => full_refuses
    (hall fullSession (.string "x") (Session.start_sound _ _) (by simp [Value.handles])), ?_⟩
  intro hall
  have hrun : (noting.bind fun b => b.session.bind fun s =>
      (run Host.none 98 { b with busy := true } s.id (.reading "f")).bind fun read =>
      (callGlobal Host.none 99 b "f" [.callable ⟨⟨0, 0⟩, 1⟩]).bind fun r =>
      r.2.session.map fun s' => (read.1.toOption, b.busy, s.pins.isEmpty,
        (s.heap.getGlobal "asked").isNil, (s'.heap.getGlobal "asked").isNil)) =
      some (some (.function 18), false, true, true, false) := by decide +kernel
  obtain ⟨b, -, hrun⟩ := Option.bind_eq_some_iff.mp hrun
  obtain ⟨s, hs, hrun⟩ := Option.bind_eq_some_iff.mp hrun
  obtain ⟨⟨read, b₁⟩, hread, hrun⟩ := Option.bind_eq_some_iff.mp hrun
  obtain ⟨⟨r, b'⟩, hcall, hrun⟩ := Option.bind_eq_some_iff.mp hrun
  obtain ⟨s', hs', heq⟩ := Option.map_eq_some_iff.mp hrun
  simp only [Prod.mk.injEq] at heq
  obtain ⟨hfunction, hfree, hpins, hbefore, hafter⟩ := heq
  have hreads : read = .ok (.function 18) := by
    cases read with
    | error e => cases hfunction
    | ok d => exact congrArg Except.ok (Option.some.inj hfunction)
  have hunheld : ¬ s.Holds ⟨⟨0, 0⟩, 1⟩ := by
    rintro ⟨-, p, hp, -⟩
    rw [List.isEmpty_iff.mp hpins] at hp
    exact List.not_mem_nil hp
  have hsame := hall b b' s s' "f" (.callable ⟨⟨0, 0⟩, 1⟩) r hfree hs ⟨18, b₁, hreads ▸ hread⟩
    ⟨_, List.mem_singleton_self _, hunheld⟩ hcall hs' "asked"
  rw [hsame, hbefore] at hafter
  cases hafter

end ScriptHost.Bridge
