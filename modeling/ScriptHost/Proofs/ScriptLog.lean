import Mathlib.Data.List.DropRight
import ScriptHost.ScriptLog

/-!
# Clones of a log

The clones of a log share its lines, and each has its capacity for itself.  Whatever is pushed, drained and
cleared through any of them, all show the lines pushed last since the log was emptied, as many as fit.
-/

set_option autoImplicit false

namespace ScriptHost

namespace ScriptLog

structure Clones where
  lines : List String
  capacities : List ℕ

inductive Event where
  | pushed (line : String)
  | drained (lines : List String)
  | cleared
  | cloned

namespace Event

def line? : Event → Option String
  | .pushed line => some line
  | _ => none

def empties : Event → Bool
  | .drained _ => true
  | .cleared => true
  | _ => false

end Event

namespace Clones

def ofCapacity (c : ℕ) : Clones := ⟨(ScriptLog.ofCapacity c).lines, [(ScriptLog.ofCapacity c).capacity]⟩

def logs (s : Clones) : List ScriptLog := s.capacities.map fun c => ⟨c, s.lines⟩

def leave (s : Clones) (log : ScriptLog) : Clones := { s with lines := log.lines }

inductive Step : Clones → Event → Clones → Prop
  | push {s : Clones} {l : ScriptLog} (hl : l ∈ s.logs) (line : String) :
      Step s (.pushed line) (s.leave (l.push line))
  | drain {s : Clones} {l : ScriptLog} (hl : l ∈ s.logs) : Step s (.drained l.drain.1) (s.leave l.drain.2)
  | clear {s : Clones} {l : ScriptLog} (hl : l ∈ s.logs) : Step s .cleared (s.leave l.clear)
  | clone {s : Clones} {l : ScriptLog} (hl : l ∈ s.logs) :
      Step s .cloned { s with capacities := l.capacity :: s.capacities }

/-- The events since a log of capacity `c` was made, the last one at the end, and its clones after them. -/
inductive History (c : ℕ) : List Event → Clones → Prop
  | opened : History c [] (ofCapacity c)
  | later {events : List Event} {s t : Clones} {e : Event} (h : History c events s) (hstep : Step s e t) :
      History c (events ++ [e]) t

end Clones

def pending (events : List Event) : List String :=
  -- the lines pushed since the log was last drained or cleared
  (events.rtakeWhile fun e => !e.empties).filterMap Event.line?

def recent (c : ℕ) (events : List Event) : List String :=
  (pending events).rtake (min (pending events).length (max c 1))

theorem rtake_min (lines : List String) (n : ℕ) : lines.rtake (min lines.length n) = lines.rtake n := by
  rw [List.rtake, List.rtake]
  congr 1
  omega

@[simp] theorem rtake_length (lines : List String) (n : ℕ) : (lines.rtake n).length = min lines.length n := by
  rw [List.rtake, List.length_drop]
  omega

/-- A full log drops its oldest line, and no other log has more lines than fit. -/
theorem push_lines {log : ScriptLog} {history : List String} (hcapacity : 0 < log.capacity)
    (hlines : log.lines = history.rtake log.capacity) (line : String) :
    (log.push line).lines = (history ++ [line]).rtake log.capacity := by
  obtain ⟨k, hk⟩ := Nat.exists_eq_succ_of_ne_zero hcapacity.ne'
  -- one line fewer than fit is kept, so the new one has room
  have hkept : (if log.size = log.capacity then log.lines.drop 1 else log.lines) = history.rtake k := by
    have hsize : log.size = min history.length (k + 1) := by rw [size, hlines, rtake_length, hk]
    rw [hsize, hlines, hk, List.rtake, List.rtake]
    split
    · rw [List.drop_drop]
      congr 1
      omega
    · congr 1
      omega
  rw [hk, List.rtake_concat_succ, ← hkept]
  rfl

theorem pending_emptied (events : List Event) {e : Event} (he : e.empties = true) :
    pending (events ++ [e]) = [] := by
  rw [pending, List.rtakeWhile_concat_neg _ _ _ (by simp [he]), List.filterMap_nil]

theorem pending_kept (events : List Event) {e : Event} (he : e.empties = false) :
    pending (events ++ [e]) = pending events ++ e.line?.toList := by
  rw [pending, List.rtakeWhile_concat_pos _ _ _ (by simp [he]), List.filterMap_append, pending]
  cases e <;> rfl

namespace Clones

structure Showing (c : ℕ) (events : List Event) (s : Clones) : Prop where
  capacity : ∀ k ∈ s.capacities, k = max c 1
  lines : s.lines = (pending events).rtake (max c 1)

theorem Showing.log {c : ℕ} {events : List Event} {s : Clones} (h : Showing c events s) {log : ScriptLog}
    (hlog : log ∈ s.logs) : log = ⟨max c 1, (pending events).rtake (max c 1)⟩ := by
  obtain ⟨k, hk, rfl⟩ := List.mem_map.mp hlog
  rw [h.capacity k hk, h.lines]

theorem ofCapacity_showing (c : ℕ) : Showing c [] (ofCapacity c) where
  capacity _ hk := List.mem_singleton.mp hk
  lines := (List.rtake_nil _).symm

theorem step_showing {c : ℕ} {events : List Event} {s t : Clones} {e : Event} (h : Showing c events s)
    (hstep : Step s e t) : Showing c (events ++ [e]) t := by
  cases hstep with
  | push hl line =>
    obtain rfl := h.log hl
    have hpos : 0 < max c 1 := by omega
    exact ⟨h.capacity, by rw [pending_kept events rfl]; exact push_lines hpos rfl line⟩
  | drain hl => exact ⟨h.capacity, by rw [pending_emptied events rfl]; exact (List.rtake_nil _).symm⟩
  | clear hl => exact ⟨h.capacity, by rw [pending_emptied events rfl]; exact (List.rtake_nil _).symm⟩
  | clone hl =>
    obtain rfl := h.log hl
    refine ⟨List.forall_mem_cons.mpr ⟨rfl, h.capacity⟩, ?_⟩
    rw [pending_kept events rfl, h.lines]
    exact congrArg (List.rtake · (max c 1)) (List.append_nil _).symm

theorem history_showing {c : ℕ} {events : List Event} {s : Clones} (h : History c events s) :
    Showing c events s := by
  induction h with
  | opened => exact ofCapacity_showing c
  | later _ hstep ih => exact step_showing ih hstep

theorem logs_lines {c : ℕ} {events : List Event} {s : Clones} (h : Showing c events s) {log : ScriptLog}
    (hlog : log ∈ s.logs) : log.lines = recent c events := by
  rw [h.log hlog, recent, rtake_min]

theorem step_drained {c : ℕ} {events : List Event} {s t : Clones} {lines : List String}
    (h : Showing c events s) (hstep : Step s (.drained lines) t) : lines = recent c events := by
  cases hstep with
  | drain hl => exact logs_lines h hl

/-- Each draining took what was shown before it. -/
theorem history_drained {c : ℕ} {events : List Event} {s : Clones} (h : History c events s)
    {before after : List Event} {lines : List String} (hsplit : events = before ++ .drained lines :: after) :
    lines = recent c before := by
  induction h generalizing after with
  | opened => simp at hsplit
  | @later events s t e h hstep ih =>
    rcases List.eq_nil_or_concat after with rfl | ⟨rest, last, rfl⟩
    · obtain ⟨rfl, hlast⟩ := List.append_inj' hsplit rfl
      obtain rfl := List.singleton_inj.mp hlast
      exact step_drained (history_showing h) hstep
    · rw [List.concat_eq_append, ← List.cons_append, ← List.append_assoc] at hsplit
      exact ih (List.append_inj' hsplit rfl).1

theorem step_emptied {s t : Clones} {lines : List String} (hstep : Step s (.drained lines) t) :
    t.lines = [] := by
  cases hstep with
  | drain hl => rfl

/-- Each clone shows the lines pushed last since the log was emptied, as many as fit and never more than
that.  Draining takes exactly these and leaves every clone empty, so of the lines taken or shown none is
missing and none comes twice. -/
theorem clones_show_recent (c : ℕ) (events : List Event) (s : Clones) (h : History c events s) :
    (∀ log ∈ s.logs, log.lines = recent c events ∧ log.size = min (pending events).length (max c 1) ∧
      log.size ≤ max c 1) ∧
    (∀ before lines after, events = before ++ .drained lines :: after → lines = recent c before) ∧
    ∀ lines t, Step s (.drained lines) t →
      (∀ log ∈ s.logs, lines = log.lines) ∧ ∀ log ∈ t.logs, log.isEmpty = true := by
  have hshowing := history_showing h
  refine ⟨fun log hlog => ?_, fun before lines after => history_drained h, fun lines t hstep => ⟨?_, ?_⟩⟩
  · have hsize : log.size = min (pending events).length (max c 1) := by
      simp [hshowing.log hlog, size]
    exact ⟨logs_lines hshowing hlog, hsize, hsize ▸ min_le_right _ _⟩
  · intro log hlog
    rw [step_drained hshowing hstep, logs_lines hshowing hlog]
  · intro log hlog
    obtain ⟨k, -, rfl⟩ := List.mem_map.mp hlog
    rw [isEmpty, step_emptied hstep]
    rfl

/-- A log of capacity zero keeps one line; the second was pushed and drained through a clone. -/
theorem clones_show_single :
    let s : Clones := ⟨["c"], [1, 1]⟩
    History 0 [.pushed "a", .cloned, .pushed "b", .drained ["b"], .pushed "c"] s ∧
      (∀ log ∈ s.logs, log.lines = ["c"]) ∧ recent 0 [.pushed "a", .cloned, .pushed "b"] = ["b"] ∧
      ∀ t, Step s (.drained ["c"]) t → ∀ log ∈ t.logs, log.isEmpty = true := by
  intro s
  have hpushed := History.opened.later (.push (s := ofCapacity 0) (l := ⟨1, []⟩) (by decide) "a")
  have hcloned := hpushed.later (.clone (l := ⟨1, ["a"]⟩) (by decide))
  have hagain := hcloned.later (.push (l := ⟨1, ["a"]⟩) (by decide) "b")
  have hdrained := hagain.later (.drain (l := ⟨1, ["b"]⟩) (by decide))
  have hlast := hdrained.later (.push (l := ⟨1, []⟩) (by decide) "c")
  obtain ⟨hshown, htaken, hempty⟩ := clones_show_recent 0 _ _ hlast
  refine ⟨hlast, fun log hlog => (hshown log hlog).1, ?_, fun t hstep => (hempty _ t hstep).2⟩
  exact (htaken _ ["b"] [.pushed "c"] rfl).symm

end Clones

end ScriptLog

end ScriptHost
