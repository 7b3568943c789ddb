import ScriptHost.Proofs.Lua.Keeping
import ScriptHost.Lua.Library

/-!
# What the library keeps

The functions of the library do to a heap what scripts may do and make a few functions of their own, so they
keep what scripts keep.
-/

set_option autoImplicit false

namespace ScriptHost.Lua

namespace Library
open Arguments

section
variable {P : Heap → Prop}

theorem describeAll_keeps (ds : List Datum) {k : Heap → Step} (hk : Onward P k) :
    Onward P (describeAll ds k) := by
  induction ds with
  | nil => exact hk
  | cons d rest ih => exact toText_keeps _ _ fun _ => ih

theorem getAt_keeps (t : Datum) (i : Int) {k : Datum → Heap → Step} (hk : ∀ v, Onward P (k v)) :
    Onward P (getAt t i k) := index_keeps _ _ _ hk

theorem itemsFrom_keeps (t : Datum) (n : Nat) (i : Int) {k : List Datum → Heap → Step}
    (hk : ∀ ds, Onward P (k ds)) : Onward P (itemsFrom t n i k) := by
  induction n generalizing i k with
  | zero => exact hk []
  | succ n ih => exact getAt_keeps t i fun d => ih (i + 1) fun ds => hk _

theorem extreme_keeps (greatest : Bool) (best : Datum) (ds : List Datum) :
    Onward P (extreme greatest best ds) := by
  induction ds generalizing best with
  | nil => exact finish_keeps _
  | cons d rest ih =>
    intro h hp
    simp only [extreme]
    split <;> exact less_keeps _ _ _ _ (fun r => ih _) h hp

end

section
variable {P : Heap → Prop} {wrong : Complaint → Heap → Step} (hwrong : ∀ c, Onward P (wrong c))
include hwrong

theorem errorCall_keeps (args : List Datum) (caller : Caller) :
    Onward P (errorCall args caller wrong) := by
  intro h hp
  simp only [errorCall]
  split
  · exact hwrong _ h hp
  · split
    · split
      · exact raiseBytes_keeps _ _ h hp
      · exact hp
    · exact hp

theorem assert_keeps (args : List Datum) (caller : Caller) :
    Onward P (Library.assert args caller wrong) := by
  intro h hp
  simp only [Library.assert]
  split
  · exact hwrong _ h hp
  · split
    · exact hp
    · exact errorCall_keeps hwrong _ _ h hp

theorem pairs_keeps (args : List Datum) (next : Datum) {h : Heap} (hp : P h) :
    (Library.pairs args next wrong h).Keeps P := by
  simp only [Library.pairs]
  split
  · exact hwrong _ h hp
  · split
    · exact hp
    · exact ⟨hp, fun _ h hp => hp⟩

theorem ipairsStep_keeps (args : List Datum) : Onward P (Library.ipairsStep args wrong) := by
  intro h hp
  simp only [Library.ipairsStep]
  split
  · exact hwrong _ h hp
  · exact index_keeps _ _ _ (fun v => finish_keeps _) h hp

theorem lengthOf_keeps (t : Datum) {k : Int → Heap → Step} (hk : ∀ n, Onward P (k n)) :
    Onward P (lengthOf t wrong k) := by
  refine length_keeps _ _ fun d h hp => ?_
  split
  · exact hk _ h hp
  · exact hwrong _ h hp

theorem unpack_keeps (args : List Datum) : Onward P (unpack args wrong) := by
  intro h hp
  simp only [unpack]
  split
  · exact hwrong _ h hp
  · next i _ =>
    have hgo : ∀ last : Int, Onward P fun h =>
        if last < i.toInt then .finish [] h
        else if 1000000 ≤ last - i.toInt then wrong (.failure "too many results to unpack") h
        else itemsFrom (arg args 1) (last - i.toInt + 1).toNat i.toInt (fun ds h => .finish ds h) h := by
      intro last h hp
      dsimp only
      split
      · exact hp
      · split
        · exact hwrong _ h hp
        · exact itemsFrom_keeps _ _ _ (fun ds => finish_keeps ds) h hp
    split
    · exact lengthOf_keeps hwrong _ hgo h hp
    · split
      · exact hwrong _ h hp
      · exact hgo _ h hp

end

section
variable {P : Heap → Prop} (hP : Lasting P) {wrong : Complaint → Heap → Step}
  (hwrong : ∀ c, Onward P (wrong c))
include hP

theorem deliver_keeps (vs : List Datum) : Onward P (deliver vs) :=
  claim_keeps hP _ (finish_keeps vs)

theorem repeated_keeps (s separator : ByteArray) (n : Nat) : Onward P (repeated s separator n) := by
  intro h hp
  simp only [repeated]
  split
  · exact hp
  · exact claim_keeps hP _ (finish_keeps _) h hp

include hwrong in
theorem joined_keeps (t : Datum) (separator : ByteArray) (n : Nat) (i : Int) (acc : ByteArray) :
    Onward P (joined t separator wrong n i acc) := by
  induction n generalizing i acc with
  | zero => exact build_keeps hP _ fun d => finish_keeps _
  | succ n ih =>
    refine getAt_keeps t i fun d h hp => ?_
    split
    · exact ⟨hp, ih _ _⟩
    · exact hwrong _ h hp

include hwrong in
theorem concat_keeps (args : List Datum) : Onward P (Library.concat args wrong) := by
  intro h hp
  simp only [Library.concat]
  split
  · exact hwrong _ h hp
  · refine lengthOf_keeps hwrong _ (fun n h hp => ?_) h hp
    split
    · exact hwrong _ h hp
    · exact joined_keeps hP hwrong _ _ _ _ _ h hp

theorem setAt_keeps (t : Datum) (i : Int) (value : Datum) {k : Heap → Step} (hk : Onward P k) :
    Onward P (setAt t i value k) := setIndex_keeps hP _ _ _ _ hk

theorem copyItems_keeps (source target : Datum) (upward : Bool) (n : Nat) (i j : Int) {k : Heap → Step}
    (hk : Onward P k) : Onward P (copyItems source target upward n i j k) := by
  induction n generalizing i j with
  | zero => exact hk
  | succ n ih =>
    refine getAt_keeps source i fun d => setAt_keeps hP target j d fun h hp => ?_
    exact ⟨hp, ih _ _⟩

include hwrong in
theorem move_keeps (args : List Datum) : Onward P (move args wrong) := by
  intro h hp
  simp only [move]
  split
  · exact hwrong _ h hp
  · next source target _ =>
    have hcopy : ∀ upward n i j, Onward P (copyItems source target upward n i j (.finish [target])) :=
      fun upward n i j => copyItems_keeps hP source target upward n i j (finish_keeps _)
    repeat' split
    · exact hcopy _ _ _ _ h hp
    · exact hcopy _ _ _ _ h hp
    · refine equal_keeps _ _ _ (fun same h hp => ?_) h hp
      split <;> exact hcopy _ _ _ _ h hp

theorem moveUp_keeps (t : Datum) (n : Nat) (i : Int) {k : Heap → Step} (hk : Onward P k) :
    Onward P (moveUp t n i k) := by
  induction n generalizing i with
  | zero => exact hk
  | succ n ih =>
    refine getAt_keeps t _ fun d => setAt_keeps hP t i d fun h hp => ?_
    exact ⟨hp, ih _⟩

theorem moveDown_keeps (t : Datum) (n : Nat) (i : Int) {k : Heap → Step} (hk : Onward P k) :
    Onward P (moveDown t n i k) := by
  induction n generalizing i with
  | zero => exact hk
  | succ n ih =>
    refine getAt_keeps t _ fun d => setAt_keeps hP t i d fun h hp => ?_
    exact ⟨hp, ih _⟩

include hwrong in
theorem insert_keeps (args : List Datum) : Onward P (Library.insert args wrong) := by
  intro h hp
  simp only [Library.insert]
  split
  · exact hwrong _ h hp
  · refine lengthOf_keeps hwrong _ (fun n h hp => ?_) h hp
    split
    · exact setAt_keeps hP _ _ _ (finish_keeps []) h hp
    · split
      · exact hwrong _ h hp
      · split
        · refine moveUp_keeps hP _ _ _ ?_ h hp
          exact setAt_keeps hP _ _ _ (finish_keeps [])
        · exact hwrong _ h hp
    · exact hwrong _ h hp

include hwrong in
theorem remove_keeps (args : List Datum) : Onward P (Library.remove args wrong) := by
  intro h hp
  simp only [Library.remove]
  split
  · exact hwrong _ h hp
  · refine lengthOf_keeps hwrong _ (fun n h hp => ?_) h hp
    split
    · exact hwrong _ h hp
    · split
      · refine getAt_keeps _ _ (fun removed => moveDown_keeps hP _ _ _ ?_) h hp
        exact setAt_keeps hP _ _ _ (finish_keeps _)
      · exact hwrong _ h hp

structure Sorts (P : Heap → Prop) (s : Sorting) : Prop where
  before : ∀ x y k, (∀ r, Onward P (k r)) → Onward P (s.before x y k)
  invalid : Onward P s.invalid

theorem swap_lasts (s : Sorting) {h : Heap} (hp : P h) (i j : Nat) : P (s.swap h i j) :=
  set_lasts hP (set_lasts hP hp _ _ _) _ _ _

variable {s : Sorting} (hs : Sorts P s)
include hs

theorem order_keeps (i j : Nat) {k : Bool → Heap → Step} (hk : ∀ r, Onward P (k r)) :
    Onward P (s.order i j k) := by
  intro h hp
  refine hs.before _ _ _ (fun r h hp => hk r _ ?_) h hp
  split
  · exact swap_lasts hP s hp i j
  · exact hp

omit hP in
theorem climb_keeps (pivot : Datum) (top fuel i : Nat) {k : Nat → Heap → Step}
    (hk : ∀ i, Onward P (k i)) : Onward P (s.climb pivot top fuel i k) := by
  induction fuel generalizing i with
  | zero => exact hs.invalid
  | succ fuel ih =>
    intro h hp
    refine hs.before _ _ _ (fun r h hp => ?_) h hp
    split
    · split
      · exact hs.invalid h hp
      · exact ⟨hp, ih _⟩
    · exact hk _ h hp

omit hP in
theorem descend_keeps (pivot : Datum) (i fuel j : Nat) {k : Nat → Heap → Step}
    (hk : ∀ j, Onward P (k j)) : Onward P (s.descend pivot i fuel j k) := by
  induction fuel generalizing j with
  | zero => exact hs.invalid
  | succ fuel ih =>
    intro h hp
    refine hs.before _ _ _ (fun r h hp => ?_) h hp
    split
    · split
      · exact hs.invalid h hp
      · exact ⟨hp, ih _⟩
    · exact hk _ h hp

theorem partition_keeps (pivot : Datum) (size up fuel i j : Nat) {k : Nat → Heap → Step}
    (hk : ∀ i, Onward P (k i)) : Onward P (s.partition pivot size up fuel i j k) := by
  induction fuel generalizing i j with
  | zero => exact hs.invalid
  | succ fuel ih =>
    refine climb_keeps hs _ _ _ _ fun i => descend_keeps hs _ _ _ _ fun j h hp => ?_
    split
    · exact hk _ _ (swap_lasts hP s hp _ _)
    · exact ih _ _ _ (swap_lasts hP s hp _ _)

theorem sorting_keeps (size fuel lo up : Nat) {k : Heap → Step} (hk : Onward P k) :
    Onward P (s.sort size fuel lo up k) := by
  induction fuel generalizing lo up k with
  | zero => exact hk
  | succ fuel ih =>
    intro h hp
    simp only [Sorting.sort]
    split
    · exact hk h hp
    · refine order_keeps hP hs _ _ (fun _ h hp => ?_) h hp
      -- what is left once the ends are in order, whichever way that went
      have hgo : Onward P fun h =>
          if up - lo = 2 then k h
          else
            s.partition (s.get h ((lo + up) / 2)) size up (size + 2) lo (up - 1) (fun p h =>
              if p - lo < up - p then
                s.sort size fuel lo (p - 1) (fun h => s.sort size fuel (p + 1) up k h) h
              else
                s.sort size fuel (p + 1) up (fun h => s.sort size fuel lo (p - 1) k h) h)
              (s.swap h ((lo + up) / 2) (up - 1)) := by
        intro h hp
        dsimp only
        split
        · exact hk h hp
        · refine partition_keeps hP hs _ _ _ _ _ _ (fun p h hp => ?_) _ (swap_lasts hP s hp _ _)
          split
          · exact ih _ _ (ih _ _ hk) h hp
          · exact ih _ _ (ih _ _ hk) h hp
      split
      · exact hk h hp
      · refine order_keeps hP hs _ _ (fun swapped h hp => ?_) h hp
        split
        · exact hgo h hp
        · exact order_keeps hP hs _ _ (fun _ => hgo) h hp

end

section
variable {P : Heap → Prop} (hP : Lasting P) {wrong : Complaint → Heap → Step}
  (hwrong : ∀ c, Onward P (wrong c))
include hP hwrong

theorem sort_keeps (args : List Datum) : Onward P (Library.sort args wrong) := by
  intro h hp
  simp only [Library.sort]
  split
  · exact hwrong _ h hp
  · refine lengthOf_keeps hwrong _ (fun n h hp => ?_) h hp
    split
    · exact hp
    · split
      · exact hwrong _ h hp
      · refine sorting_keeps hP ⟨fun x y k hk => ?_, hwrong _⟩ _ _ _ _ (finish_keeps []) h hp
        intro h hp
        dsimp only
        split
        · exact less_keeps _ _ _ _ hk h hp
        · exact callOne_keeps _ _ _ (fun d => hk _) h hp

end

section
variable {P : Heap → Prop} (hP : Lasting P) {wrong : Complaint → Heap → Step}
  (hwrong : ∀ c, Onward P (wrong c))
include hP hwrong

theorem formatAll_keeps (args : List Datum) (caller : Caller) (pieces : List Formatting.Piece) (n : Nat)
    (acc : ByteArray) : Onward P (formatAll args caller wrong pieces n acc) := by
  induction pieces generalizing n acc with
  | nil => exact build_keeps hP acc fun d => finish_keeps [d]
  | cons piece rest ih =>
    intro h hp
    cases piece with
    | plain c => exact ih _ _ h hp
    | fault message => exact hwrong _ h hp
    | item f =>
      simp only [formatAll]
      split
      · exact hwrong _ h hp
      · split
        · refine toText_keeps _ _ (fun s h hp => ?_) h hp
          split
          · exact hwrong _ h hp
          · exact ih _ _ h hp
        · split
          · exact hwrong _ h hp
          · exact ih _ _ h hp

theorem stringFormat_keeps (args : List Datum) (caller : Caller) :
    Onward P (stringFormat args caller wrong) := by
  intro h hp
  simp only [stringFormat]
  split
  · exact hwrong _ h hp
  · exact formatAll_keeps hP hwrong _ _ _ _ _ h hp

theorem allMatches_keeps (args : List Datum) : Onward P (allMatches args wrong) := by
  intro h hp
  simp only [allMatches]
  split
  · exact hwrong _ h hp
  · refine claim_keeps hP _ (fun h hp => ?_) h hp
    -- the string, the pattern, the position and the end of the last match
    exact hP.library _ _ (hP.addCell _ _ (hP.addCell _ _ (hP.addCell _ _ (hP.addCell h _ hp))))

theorem matchesStep_keeps (cell : Nat) : Onward P (matchesStep cell wrong) := by
  intro h hp
  simp only [matchesStep]
  split
  · exact hwrong _ h hp
  · exact hp
  · exact deliver_keeps hP _ _ (hP.setCell _ _ _ (hP.setCell h _ _ hp))

omit hP in
theorem given_keeps {k : Option ByteArray → Heap → Step} (hk : ∀ t, Onward P (k t)) (d : Datum) :
    Onward P (given wrong k d) := by
  intro h hp
  simp only [given]
  split
  · exact hk _ h hp
  · split
    · exact hk _ h hp
    · exact hwrong _ h hp

omit hP in
theorem replacement_keeps (r : Datum) (s : ByteArray) (start : Nat) (m : Pattern.Match)
    {k : Option ByteArray → Heap → Step} (hk : ∀ t, Onward P (k t)) :
    Onward P (replacement r s start m wrong k) := by
  have hgiven := given_keeps hwrong hk
  intro h hp
  simp only [replacement]
  split
  · split
    · exact callOne_keeps _ _ _ hgiven h hp
    · exact hwrong _ h hp
  · split
    · exact index_keeps _ _ _ hgiven h hp
    · exact hwrong _ h hp
  · split
    · exact hk _ h hp
    · exact hwrong _ h hp

omit hwrong in
theorem result_keeps (g : Replacing) (r : Replaced) : Onward P (g.result r) := by
  intro h hp
  simp only [Replacing.result]
  split
  · exact build_keeps hP _ (fun d => finish_keeps _) h hp
  · exact hp

theorem replacing_keeps (g : Replacing) (limit fuel : Nat) (r : Replaced) :
    Onward P (g.run limit wrong fuel r) := by
  induction fuel generalizing r with
  | zero => exact result_keeps hP g r
  | succ fuel ih =>
    have hagain : ∀ r, Onward P fun h =>
        if g.anchored then g.result r h else .pause h fun h => g.run limit wrong fuel r h := by
      intro r h hp
      dsimp only
      split
      · exact result_keeps hP g r h hp
      · exact ⟨hp, ih r⟩
    intro h hp
    simp only [Replacing.run]
    split
    · exact result_keeps hP g r h hp
    · split
      · exact hwrong _ h hp
      · split
        · exact replacement_keeps hwrong _ _ _ _ (fun t => hagain _) h hp
        · split
          · exact hagain _ h hp
          · exact result_keeps hP g r h hp

theorem replaceAll_keeps (args : List Datum) : Onward P (replaceAll args wrong) := by
  intro h hp
  simp only [replaceAll]
  split
  · exact hwrong _ h hp
  · exact replacing_keeps hP hwrong _ _ _ _ h hp

end

section
variable {P : Heap → Prop} (hP : Lasting P) {wrong : Complaint → Heap → Step}
  (hwrong : ∀ c, Onward P (wrong c))
include hP

theorem generator_lasts (g : Generator) (cell : Nat) {h : Heap} (hp : P h) : P (g.store cell h) :=
  hP.setCell _ _ _ (hP.setCell _ _ _ (hP.setCell _ _ _ (hP.setCell h _ _ hp)))

include hwrong

theorem random_keeps (cell : Nat) (args : List Datum) : Onward P (random cell args wrong) := by
  intro h hp
  simp only [random]
  split
  · exact generator_lasts hP _ cell hp
  · exact hwrong _ _ (generator_lasts hP _ cell hp)

theorem randomSeed_keeps (cell : Nat) (args : List Datum) : Onward P (randomSeed cell args wrong) := by
  intro h hp
  simp only [randomSeed]
  split
  · exact generator_lasts hP _ cell hp
  · exact hwrong _ h hp

end

section
variable {P : Heap → Prop} (hP : Lasting P)
include hP

theorem addThread_lasts {h : Heap} (hp : P h) : P h.addThread.2 :=
  hP.addCell _ .nil (hP.addCell h (.bool true) hp)

theorem endThread_lasts (thread : Nat) {h : Heap} (hp : P h) : P (h.endThread thread) :=
  hP.setCell h thread _ hp

theorem failThread_lasts (thread : Nat) (e : Datum) {h : Heap} (hp : P h) : P (h.failThread thread e) :=
  hP.setCell _ _ e (hP.setCell h thread .nil hp)

end

section
variable {P : Heap → Prop}

theorem resumeThread_keeps (t : Nat) (args : List Datum) (caller : Caller) {k : List Datum → Heap → Step}
    (hk : ∀ vs, Onward P (k vs)) : Onward P (resumeThread t args caller k) := by
  intro h hp
  simp only [resumeThread]
  split
  · exact ⟨hp, hk⟩
  · exact hk _ h hp
  · exact raise_keeps _ _ h hp
  · exact hk _ h hp

theorem resumeWrapped_keeps (t : Nat) (args : List Datum) (caller : Caller) :
    Onward P (resumeWrapped t args caller) := by
  refine resumeThread_keeps t args caller fun vs h hp => ?_
  repeat' split
  all_goals exact hp

theorem yieldValues_keeps (args : List Datum) (caller : Caller) : Onward P (yieldValues args caller) := by
  intro h hp
  simp only [yieldValues]
  repeat' split
  · exact ⟨hp, finish_keeps⟩
  · exact raise_keeps _ _ h hp
  · exact raise_keeps _ _ h hp

end

section
variable {P : Heap → Prop} {wrong : Complaint → Heap → Step} (hwrong : ∀ c, Onward P (wrong c))
include hwrong

theorem createCoroutine_keeps (hP : Lasting P) (args : List Datum) {k : Nat → Heap → Step}
    (hk : ∀ t, Onward P (k t)) : Onward P (createCoroutine args wrong k) := by
  intro h hp
  simp only [createCoroutine]
  split
  · exact hwrong _ h hp
  · refine claim_keeps hP _ (fun h hp => ?_) h hp
    exact ⟨addThread_lasts hP hp, hk _⟩

theorem wrapCoroutine_keeps (hP : Lasting P) (args : List Datum) : Onward P (wrapCoroutine args wrong) :=
  createCoroutine_keeps hwrong hP args fun _ => claim_keeps hP _ fun h hp => hP.library h _ hp

theorem resumeCoroutine_keeps (args : List Datum) (caller : Caller) :
    Onward P (resumeCoroutine args caller wrong) := by
  intro h hp
  simp only [resumeCoroutine]
  split
  · exact hwrong _ h hp
  · exact resumeThread_keeps _ _ _ finish_keeps h hp

theorem closeCoroutine_keeps (hP : Lasting P) (args : List Datum) (caller : Caller) :
    Onward P (closeCoroutine args caller wrong) := by
  intro h hp
  simp only [closeCoroutine]
  split
  · exact hwrong _ h hp
  · split
    · exact ⟨hp, finish_keeps⟩
    · split
      · exact endThread_lasts hP _ hp
      · exact hp
    · exact raise_keeps _ _ h hp
    · exact raise_keeps _ _ h hp

theorem coroutineStatus_keeps (args : List Datum) (caller : Caller) :
    Onward P (coroutineStatus args caller wrong) := by
  intro h hp
  simp only [coroutineStatus]
  split
  · exact hwrong _ h hp
  · split
    · exact raise_keeps _ _ h hp
    · exact hp

end

section
variable {P : Heap → Prop} (hP : Lasting P)
include hP

theorem addChunk_lasts (shown : ByteArray) (f : Function) (globals : Datum) {h : Heap} (hp : P h) :
    P (h.addChunk shown f globals).2 := hP.script _ _ _ (hP.addCell h globals hp)

theorem loadSource_keeps (mode name source : ByteArray) (globals : Option Datum) :
    Onward P (loadSource mode name source globals) := by
  intro h hp
  simp only [loadSource]
  split
  · exact build_keeps hP _ (fun d => finish_keeps _) h hp
  · split
    · exact hp
    · next hc => exact addChunk_lasts hP _ _ _ (Heap.claim_lasts hP hc hp)

omit hP in
theorem readPieces_keeps (f : Datum) (place : Option Place) {failed : Datum → Heap → Step}
    (hfailed : ∀ d, Onward P (failed d)) {k : ByteArray → Heap → Step} (hk : ∀ s, Onward P (k s))
    (fuel : Nat) (source : ByteArray) : Onward P (readPieces f place failed k fuel source) := by
  induction fuel generalizing source with
  | zero => exact fun h hp => hp
  | succ fuel ih =>
    refine fun h hp => ⟨hp, fun vs h hp => ?_⟩
    dsimp only
    repeat' split
    all_goals first
      | exact hk _ h hp
      | exact ih _ h hp
      | exact hfailed _ h hp

theorem load_keeps {wrong : Complaint → Heap → Step} (hwrong : ∀ c, Onward P (wrong c))
    (args : List Datum) (caller : Caller) : Onward P (load args caller wrong) := by
  intro h hp
  simp only [load]
  split
  · exact hwrong _ h hp
  · split
    · exact loadSource_keeps hP _ _ _ _ h hp
    · exact readPieces_keeps _ _ (fun d => finish_keeps _) (loadSource_keeps hP _ _ · _) _ _ h hp

end

theorem setMetatable_lasts {P : Heap → Prop} (hP : Lasting P) {args : List Datum} {h h' : Heap} {t : Datum}
    (hset : setMetatable args h = .ok (t, h')) (hp : P h) : P h' := by
  simp only [setMetatable, bind, Except.bind] at hset
  repeat' split at hset
  all_goals cases hset
  all_goals exact hP.modify h _ _ hp

theorem run_keeps {P : Heap → Prop} (hP : Lasting P) (b : Builtin) (args : List Datum) (caller : Caller) :
    Onward P (Library.run b args caller) := by
  intro h hp
  have hwrong : ∀ c : Complaint, Onward P (c.throw b.ownName caller) := fun c => raiseBytes_keeps _ _
  cases b <;> simp only [Library.run]
  case assert => exact assert_keeps hwrong _ _ h hp
  case error => exact errorCall_keeps hwrong _ _ h hp
  case load => exact load_keeps hP hwrong _ _ h hp
  case next => split <;> exact hp
  case pairs => exact pairs_keeps hwrong _ _ hp
  case pcall =>
    split
    · exact raise_keeps _ _ h hp
    · exact ⟨hp, finish_keeps⟩
  case print => exact describeAll_keeps _ (finish_keeps []) h hp
  case rawSet =>
    split
    · exact hwrong _ h hp
    · exact rawSet_keeps hP _ _ _ _ (finish_keeps _) h hp
  case setMetatable =>
    split
    · exact hwrong _ h hp
    · next t h' hset => exact setMetatable_lasts hP hset hp
  case toText =>
    split
    · exact hwrong _ h hp
    · exact toText_keeps _ _ (fun s => build_keeps hP s fun d => finish_keeps _) h hp
  case xpcall =>
    split
    · exact ⟨hp, finish_keeps⟩
    · exact raise_keeps _ _ h hp
  case ipairsStep => exact ipairsStep_keeps hwrong _ h hp
  case stringFormat => exact stringFormat_keeps hP hwrong _ _ h hp
  case stringMatches => exact allMatches_keeps hP hwrong _ h hp
  case matchesStep cell => exact matchesStep_keeps hP hwrong cell h hp
  case stringReplace => exact replaceAll_keeps hP hwrong _ h hp
  case stringRepeat =>
    split
    · exact repeated_keeps hP _ _ _ h hp
    · exact hwrong _ h hp
  case stringChar | stringFind | stringLower | stringMatch | stringPack | stringReverse | stringSub
    | stringUnpack | stringUpper | utf8Char =>
    split
    · exact deliver_keeps hP _ h hp
    · exact hwrong _ h hp
  case tableConcat => exact concat_keeps hP hwrong _ h hp
  case tableInsert => exact insert_keeps hP hwrong _ h hp
  case tableMove => exact move_keeps hP hwrong _ h hp
  case tablePack =>
    refine claim_keeps hP _ (fun h hp => ?_) h hp
    exact hP.allocate h _ hp
  case tableRemove => exact remove_keeps hP hwrong _ h hp
  case tableSort => exact sort_keeps hP hwrong _ h hp
  case tableUnpack => exact unpack_keeps hwrong _ h hp
  case mathMax =>
    split
    · exact hwrong _ h hp
    · exact extreme_keeps _ _ _ h hp
  case mathMin =>
    split
    · exact hwrong _ h hp
    · exact extreme_keeps _ _ _ h hp
  case mathRandom cell => exact random_keeps hP hwrong cell _ h hp
  case mathRandomSeed cell => exact randomSeed_keeps hP hwrong cell _ h hp
  case coroutineClose => exact closeCoroutine_keeps hwrong hP _ _ h hp
  case coroutineCreate => exact createCoroutine_keeps hwrong hP _ (fun t => finish_keeps _) h hp
  case coroutineResume => exact resumeCoroutine_keeps hwrong _ _ h hp
  case coroutineRunning => exact hp
  case coroutineStatus => exact coroutineStatus_keeps hwrong _ _ h hp
  case coroutineWrap => exact wrapCoroutine_keeps hwrong hP _ h hp
  case coroutineWrapped t => exact resumeWrapped_keeps t _ _ h hp
  case coroutineYield => exact yieldValues_keeps _ _ h hp
  case unsupported name => exact raise_keeps _ _ h hp
  all_goals split <;> exact hp

end Library

end ScriptHost.Lua
