import ScriptHost.Lua.Machine

/-!
# What a script keeps

A script changes its heap in a few ways only: it makes and fills tables, makes functions of its own text,
and declares and sets local variables.  A property of heaps that these keep is kept by every step of every
machine, whatever the script does and whatever its calls return.  A step holds the rest of its script as a
function of a heap to come, so what a step keeps is said of all heaps that have the property.
-/

set_option autoImplicit false

namespace ScriptHost.Lua

/-- A property of heaps that nothing ends which a script does. -/
structure Lasting (P : Heap → Prop) : Prop where
  allocate : ∀ h t, P h → P (h.allocate t).2
  modify : ∀ h a f, P h → P (h.modify a f)
  script : ∀ h f env, P h → P (h.addRoutine (.script f env)).2
  library : ∀ h b, P h → P (h.addRoutine (.library b)).2
  addCell : ∀ h d, P h → P (h.addCell d).2
  setCell : ∀ h a d, P h → P (h.setCell a d)
  serial : ∀ h, P h → P h.serial.2
  spend : ∀ h n, P h → P { h with spent := n }

theorem Heap.claim_lasts {P : Heap → Prop} (hP : Lasting P) {h h' : Heap} {size : Nat}
    (hc : h.claim? size = some h') (hp : P h) : P h' := by
  simp only [Heap.claim?] at hc
  split at hc
  · exact Option.some.inj hc ▸ hp
  · split at hc
    · exact Option.some.inj hc ▸ hP.spend h _ hp
    · cases hc

def Step.Keeps (P : Heap → Prop) : Step → Prop
  -- the heap of a step has the property, and if the calls that the step waits for keep it, so have
  -- all heaps that follow
  | .finish _ h => P h
  | .throw _ h => P h
  | .call _ _ _ h k => P h ∧ ∀ vs h', P h' → (k vs h').Keeps P
  | .tail _ _ _ h => P h
  | .attempt _ _ _ h k => P h ∧ ∀ vs h', P h' → (k vs h').Keeps P
  | .again _ h k => P h ∧ ∀ flow h', P h' → (k flow h').Keeps P
  | .enclose _ h k => P h ∧ ∀ h', P h' → (k h').Keeps P
  | .leave h k => P h ∧ ∀ h', P h' → (k h').Keeps P
  | .spawn _ _ h k => P h ∧ ∀ h', P h' → (k h').Keeps P
  | .wake _ _ h k => P h ∧ ∀ vs h', P h' → (k vs h').Keeps P
  | .yield _ h k => P h ∧ ∀ vs h', P h' → (k vs h').Keeps P
  | .shut _ h k => P h ∧ ∀ vs h', P h' → (k vs h').Keeps P
  | .pause h k => P h ∧ ∀ h', P h' → (k h').Keeps P

def Onward (P : Heap → Prop) (k : Heap → Step) : Prop := ∀ h, P h → (k h).Keeps P

section
variable {P : Heap → Prop}

theorem finish_keeps (vs : List Datum) : Onward P (.finish vs) := fun _ hp => hp

theorem raiseBytes_keeps (place : Option Place) (message : ByteArray) :
    Onward P (raiseBytes place message) := fun _ hp => hp

theorem raise_keeps (place : Option Place) (message : String) : Onward P (raise place message) :=
  fun _ hp => hp

theorem refuse_keeps (operation : String) (d : Datum) (spot : Spot) :
    Onward P (refuse operation d spot) := fun _ hp => hp

theorem callOne_keeps (f : Datum) (args : List Datum) (place : Option Place)
    {k : Datum → Heap → Step} (hk : ∀ v, Onward P (k v)) : Onward P (callOne f args place k) :=
  fun _ hp => ⟨hp, fun _ => hk _⟩

theorem callEvent_keeps (event : String) (f : Datum) (args : List Datum) (place : Option Place)
    {k : Datum → Heap → Step} (hk : ∀ v, Onward P (k v)) : Onward P (callEvent event f args place k) :=
  fun _ hp => ⟨hp, fun _ => hk _⟩

theorem indexChain_keeps (fuel : Nat) (object key : Datum) (spot : Spot) {k : Datum → Heap → Step}
    (hk : ∀ v, Onward P (k v)) : Onward P (indexChain fuel object key spot k) := by
  induction fuel generalizing object spot with
  | zero => exact raise_keeps _ _
  | succ fuel ih =>
    intro h hp
    have hcalled : ∀ m : Datum, (callEvent "index" m [object, key] spot.place k h).Keeps P :=
      fun m => callEvent_keeps _ _ _ _ hk h hp
    have hchained : ∀ m : Datum, (indexChain fuel m key ⟨spot.place, none⟩ k h).Keeps P :=
      fun m => ih m ⟨spot.place, none⟩ h hp
    simp only [indexChain]
    repeat' split
    all_goals first
      | exact hk _ h hp
      | exact hcalled _
      | exact hchained _
      | exact refuse_keeps _ _ _ h hp

theorem index_keeps (object key : Datum) (spot : Spot) {k : Datum → Heap → Step}
    (hk : ∀ v, Onward P (k v)) : Onward P (index object key spot k) :=
  indexChain_keeps _ _ _ _ hk

theorem binaryEvent_keeps (event : String) (f : Datum) (args : List Datum) (place : Option Place)
    {k : Bool → Heap → Step} (hk : ∀ r, Onward P (k r)) :
    Onward P (callEvent event f args place fun v h => k v.isTruthy h) :=
  callEvent_keeps _ _ _ _ fun v => hk v.isTruthy

theorem blame_keeps (operation : String) (a b : Datum) (na nb : Option Naming) (place : Option Place) :
    Onward P (blame operation a b na nb place) := by
  intro h hp
  simp only [blame]
  split <;> exact refuse_keeps _ _ _ h hp

theorem arithmetic_keeps (op : Arithmetic) (a b : Datum) (na nb : Option Naming) (place : Option Place)
    {k : Datum → Heap → Step} (hk : ∀ v, Onward P (k v)) :
    Onward P (arithmetic op a b na nb place k) := by
  intro h hp
  simp only [arithmetic]
  split
  · exact hk _ h hp
  · exact raise_keeps _ _ h hp
  · split
    · split
      · split
        · exact raiseBytes_keeps _ _ h hp
        · exact blame_keeps _ _ _ _ _ _ h hp
      · split
        · split
          · exact hk _ h hp
          · exact raise_keeps _ _ h hp
          · exact raise_keeps _ _ h hp
        · exact blame_keeps _ _ _ _ _ _ h hp
    · exact callEvent_keeps _ _ _ _ hk h hp

theorem negate_keeps (a : Datum) (spot : Spot) {k : Datum → Heap → Step} (hk : ∀ v, Onward P (k v)) :
    Onward P (negate a spot k) := by
  intro h hp
  simp only [negate]
  split
  · exact hk _ h hp
  · split
    · split
      · split
        · exact hk _ h hp
        · exact raise_keeps _ _ h hp
      · exact refuse_keeps _ _ _ h hp
    · exact callEvent_keeps _ _ _ _ hk h hp

theorem complement_keeps (a : Datum) (spot : Spot) {k : Datum → Heap → Step}
    (hk : ∀ v, Onward P (k v)) : Onward P (complement a spot k) := by
  intro h hp
  simp only [complement]
  split
  · exact hk _ h hp
  · split
    · split
      · exact raiseBytes_keeps _ _ h hp
      · exact refuse_keeps _ _ _ h hp
    · exact callEvent_keeps _ _ _ _ hk h hp

theorem length_keeps (a : Datum) (spot : Spot) {k : Datum → Heap → Step} (hk : ∀ v, Onward P (k v)) :
    Onward P (length a spot k) := by
  intro h hp
  simp only [length]
  split
  · exact hk _ h hp
  · split
    · split
      · exact hk _ h hp
      · exact refuse_keeps _ _ _ h hp
    · exact callEvent_keeps _ _ _ _ hk h hp

theorem equal_keeps (a b : Datum) (place : Option Place) {k : Bool → Heap → Step}
    (hk : ∀ r, Onward P (k r)) : Onward P (equal a b place k) := by
  intro h hp
  simp only [equal]
  split
  · split
    · exact hk _ h hp
    · split
      · exact hk _ h hp
      · exact binaryEvent_keeps _ _ _ _ hk h hp
  · exact hk _ h hp

theorem less_keeps (orEqual : Bool) (a b : Datum) (place : Option Place) {k : Bool → Heap → Step}
    (hk : ∀ r, Onward P (k r)) : Onward P (less orEqual a b place k) := by
  intro h hp
  simp only [less]
  split
  · exact hk _ h hp
  · split
    · exact raise_keeps _ _ h hp
    · exact binaryEvent_keeps _ _ _ _ hk h hp

theorem compare_keeps (op : Comparison) (a b : Datum) (place : Option Place) {k : Bool → Heap → Step}
    (hk : ∀ r, Onward P (k r)) : Onward P (compare op a b place k) := by
  cases op with
  | eq => exact equal_keeps _ _ _ hk
  | ne => exact equal_keeps _ _ _ fun r => hk !r
  | lt => exact less_keeps _ _ _ _ hk
  | le => exact less_keeps _ _ _ _ hk
  | gt => exact less_keeps _ _ _ _ hk
  | ge => exact less_keeps _ _ _ _ hk

theorem toText_keeps (d : Datum) (place : Option Place) {k : ByteArray → Heap → Step}
    (hk : ∀ s, Onward P (k s)) : Onward P (toText d place k) := by
  intro h hp
  simp only [toText]
  split
  · split
    · exact hk _ h hp
    · refine callOne_keeps _ _ _ (fun v h hp => ?_) h hp
      split
      · exact hk _ h hp
      · exact raise_keeps _ _ h hp
  · exact hk _ h hp

end

section
variable {P : Heap → Prop} (hP : Lasting P)
include hP

theorem claim_keeps (size : Nat) {k : Heap → Step} (hk : Onward P k) : Onward P (claim size k) := by
  intro h hp
  simp only [claim]
  split
  · next hc => exact hk _ (Heap.claim_lasts hP hc hp)
  · exact hp

theorem build_keeps (s : ByteArray) {k : Datum → Heap → Step} (hk : ∀ v, Onward P (k v)) :
    Onward P (build s k) := claim_keeps hP _ (hk _)

theorem concatenate_keeps (a b : Datum) (na nb : Option Naming) (place : Option Place)
    {k : Datum → Heap → Step} (hk : ∀ v, Onward P (k v)) :
    Onward P (concatenate a b na nb place k) := by
  intro h hp
  simp only [concatenate]
  split
  · exact build_keeps hP _ hk h hp
  · split
    · split <;> exact refuse_keeps _ _ _ h hp
    · exact callEvent_keeps _ _ _ _ hk h hp

theorem set_lasts {h : Heap} (hp : P h) (address : Nat) (key value : Datum) :
    P (h.set address key value) := hP.modify h address _ hp

theorem store_keeps (address : Nat) (key value : Datum) {k : Heap → Step} (hk : Onward P k) :
    Onward P (store address key value k) := by
  have hset : Onward P fun h => k (h.set address key value) :=
    fun h hp => hk _ (set_lasts hP hp address key value)
  intro h hp
  simp only [store]
  split
  · exact hset h hp
  · exact claim_keeps hP _ hset h hp

theorem rawSet_keeps (address : Nat) (key value : Datum) (place : Option Place) {k : Heap → Step}
    (hk : Onward P k) : Onward P (rawSet address key value place k) := by
  intro h hp
  simp only [rawSet]
  split
  · exact store_keeps hP _ _ _ hk h hp
  · exact raise_keeps _ _ h hp

theorem setIndexChain_keeps (fuel : Nat) (object key value : Datum) (spot : Spot) {k : Heap → Step}
    (hk : Onward P k) : Onward P (setIndexChain fuel object key value spot k) := by
  induction fuel generalizing object spot with
  | zero => exact raise_keeps _ _
  | succ fuel ih =>
    intro h hp
    have hcalled : ∀ m : Datum, (Step.call m [object, key, value] (metamethodSpot "newindex" spot.place) h
        fun _ h => k h).Keeps P := fun m => ⟨hp, fun _ => hk⟩
    have hchained : ∀ m : Datum, (setIndexChain fuel m key value ⟨spot.place, none⟩ k h).Keeps P :=
      fun m => ih m ⟨spot.place, none⟩ h hp
    have hraw : ∀ a : Nat, (rawSet a key value spot.place k h).Keeps P :=
      fun a => rawSet_keeps hP a key value spot.place hk h hp
    simp only [setIndexChain]
    repeat' split
    all_goals first
      | exact hraw _
      | exact hcalled _
      | exact hchained _
      | exact refuse_keeps _ _ _ h hp

theorem setIndex_keeps (object key value : Datum) (spot : Spot) {k : Heap → Step} (hk : Onward P k) :
    Onward P (setIndex object key value spot k) :=
  setIndexChain_keeps hP _ _ _ _ _ hk

theorem target_keeps (t : Target) (value : Datum) {k : Heap → Step} (hk : Onward P k) :
    Onward P (t.store value k) := by
  cases t with
  | cell address => exact fun h hp => hk _ (hP.setCell h address value hp)
  | slot object key spot => exact setIndex_keeps hP _ _ _ _ hk

theorem storeAll_keeps (ts : List Target) (vs : List Datum) {k : Heap → Step} (hk : Onward P k) :
    Onward P (storeAll ts vs k) := by
  induction ts generalizing vs k with
  | nil => exact hk
  | cons t ts ih => exact ih _ (target_keeps hP t _ hk)

theorem bind_lasts (env : Env) (names : List String) (vs : List Datum) {h : Heap} (hp : P h) :
    P (env.bind names vs h).2 := by
  induction names generalizing env vs h with
  | nil => exact hp
  | cons x xs ih => exact ih _ _ (hP.addCell h _ hp)

end

section
variable {P : Heap → Prop}

mutual

theorem eval_keeps (hP : Lasting P) (e : Expr) (env : Env) (k : List Datum → Heap → Step)
    (hk : ∀ vs, Onward P (k vs)) : Onward P (e.eval env k) := by
  intro h hp
  -- an operand runs with what comes after it as its continuation, so `hk` grows from right to left
  cases e with
  | nil => exact hk _ h hp
  | bool b => exact hk _ h hp
  | number n => exact hk _ h hp
  | string s => exact hk _ h hp
  | varargs => exact hk _ h hp
  | name x =>
    simp only [Expr.eval]
    split
    · exact hk _ h hp
    · exact index_keeps _ _ _ (fun v => hk [v]) h hp
  | index object key line =>
    refine eval_keeps hP object env _ (fun o => ?_) h hp
    exact eval_keeps hP key env _ fun x => index_keeps _ _ _ fun v => hk [v]
  | call fn args line =>
    refine eval_keeps hP fn env _ (fun f => ?_) h hp
    exact evalList_keeps hP args env _ fun vs h hp => ⟨hp, hk⟩
  | method object name args line nameLine =>
    refine eval_keeps hP object env _ (fun o => index_keeps _ _ _ fun f => ?_) h hp
    exact evalList_keeps hP args env _ fun vs h hp => ⟨hp, hk⟩
  | function f => exact claim_keeps hP _ (fun h hp => hk _ _ (hP.script h f env hp)) h hp
  | arithmetic op left right line =>
    refine eval_keeps hP left env _ (fun a => ?_) h hp
    exact eval_keeps hP right env _ fun b => arithmetic_keeps _ _ _ _ _ _ fun v => hk [v]
  | compare op left right line =>
    refine eval_keeps hP left env _ (fun a => ?_) h hp
    exact eval_keeps hP right env _ fun b => compare_keeps _ _ _ _ fun r => hk [.bool r]
  | concat left right line =>
    refine eval_keeps hP left env _ (fun a => ?_) h hp
    exact eval_keeps hP right env _ fun b => concatenate_keeps hP _ _ _ _ _ fun v => hk [v]
  | unary op operand line =>
    refine eval_keeps hP operand env _ (fun a => ?_) h hp
    cases op with
    | not => exact hk _
    | negate => exact negate_keeps _ _ fun v => hk [v]
    | complement => exact complement_keeps _ _ fun v => hk [v]
    | length => exact length_keeps _ _ fun v => hk [v]
  | both left right =>
    refine eval_keeps hP left env _ (fun a h hp => ?_) h hp
    split
    · exact eval_keeps hP right env _ (fun b => hk _) h hp
    · exact hk _ h hp
  | either left right =>
    refine eval_keeps hP left env _ (fun a h hp => ?_) h hp
    split
    · exact hk _ h hp
    · exact eval_keeps hP right env _ (fun b => hk _) h hp
  | single e => exact eval_keeps hP e env _ (fun vs => hk _) h hp
  | table fields =>
    refine claim_keeps hP _ (fun h hp => ?_) h hp
    refine evalFields_keeps hP fields env _ _ (fun items => ?_) _ (hP.allocate h _ hp)
    exact claim_keeps hP _ fun h hp => hk _ _ (hP.modify h _ _ hp)

theorem evalList_keeps (hP : Lasting P) (es : List Expr) (env : Env) (k : List Datum → Heap → Step)
    (hk : ∀ vs, Onward P (k vs)) : Onward P (Expr.evalList es env k) := by
  intro h hp
  match es with
  | [] => exact hk _ h hp
  | [e] => exact eval_keeps hP e env _ hk h hp
  | e :: e' :: rest =>
    refine eval_keeps hP e env _ (fun vs => ?_) h hp
    exact evalList_keeps hP (e' :: rest) env _ fun ws => hk _

theorem evalFields_keeps (hP : Lasting P) (fields : List Field) (env : Env) (address : Nat)
    (k : List Datum → Heap → Step) (hk : ∀ vs, Onward P (k vs)) :
    Onward P (Field.evalList fields env address k) := by
  intro h hp
  match fields with
  | [] => exact hk _ h hp
  | [.item e] => exact eval_keeps hP e env _ hk h hp
  | .item e :: f :: rest =>
    refine eval_keeps hP e env _ (fun vs => ?_) h hp
    exact evalFields_keeps hP (f :: rest) env address _ fun ws => hk _
  | .entry key value line :: rest =>
    refine eval_keeps hP key env _ (fun x => ?_) h hp
    refine eval_keeps hP value env _ fun v => ?_
    exact rawSet_keeps hP _ _ _ _ (evalFields_keeps hP rest env address k hk)

end

end

section
variable {P : Heap → Prop} (hP : Lasting P)
include hP

theorem value_keeps (e : Expr) (env : Env) {k : Datum → Heap → Step} (hk : ∀ v, Onward P (k v)) :
    Onward P (e.value env k) :=
  eval_keeps hP e env _ fun _ => hk _

theorem evalTargets_keeps (es : List Expr) (env : Env) (line : Nat) {k : List Target → Heap → Step}
    (hk : ∀ ts, Onward P (k ts)) : Onward P (Expr.evalTargets es env line k) := by
  induction es generalizing k with
  | nil => exact hk []
  | cons e rest ih =>
    intro h hp
    unfold Expr.evalTargets
    split
    · next heq => cases heq
    · next heq =>
      obtain ⟨rfl, rfl⟩ := List.cons.inj heq
      exact ih (fun ts => hk _) h hp
    · next heq =>
      obtain ⟨rfl, rfl⟩ := List.cons.inj heq
      refine value_keeps hP _ env (fun o => ?_) h hp
      exact value_keeps hP _ env fun x => ih fun ts => hk _
    · next heq =>
      obtain ⟨rfl, rfl⟩ := List.cons.inj heq
      exact ih hk h hp

end

section
variable {P : Heap → Prop}

theorem again_keeps (l : Loop) {k : Flow → Heap → Step} (hk : ∀ flow, Onward P (k flow)) :
    Onward P fun h => .again l h k := fun _ hp => ⟨hp, hk⟩

theorem leave_keeps (n : Nat) {k : Heap → Step} (hk : Onward P k) : Onward P (leave n k) := by
  induction n with
  | zero => exact hk
  | succ n ih => exact fun h hp => ⟨hp, ih⟩

theorem out_keeps (env : Env) (flow : Flow) {k : Flow → Heap → Step} (hk : ∀ flow, Onward P (k flow)) :
    Onward P (flow.out env k) := by
  cases flow with
  | next inner => exact leave_keeps _ (hk _)
  | jump label pending => exact leave_keeps _ (hk _)

theorem enclose_keeps (name : String) (d : Datum) (place : Option Place) {k : Heap → Step}
    (hk : Onward P k) : Onward P (enclose name d place k) := by
  intro h hp
  simp only [enclose]
  split
  · exact raise_keeps _ _ h hp
  · exact ⟨hp, hk⟩

end

section
variable {P : Heap → Prop}

mutual

theorem exec_keeps (hP : Lasting P) (s : Stat) (env : Env) (k : Flow → Heap → Step)
    (hk : ∀ flow, Onward P (k flow)) : Onward P (s.exec env k) := by
  intro h hp
  match s with
  | .locals names values =>
    exact evalList_keeps hP values env _ (fun vs h hp => hk _ _ (bind_lasts hP env names vs hp)) h hp
  | .localFunction name f =>
    refine claim_keeps hP _ (fun h hp => ?_) _ (hP.addCell h .nil hp)
    exact hk _ _ (hP.setCell _ _ _ (hP.script h f _ hp))
  | .assign targets values line =>
    refine evalTargets_keeps hP targets env line (fun ts => ?_) h hp
    exact evalList_keeps hP values env _ fun vs => storeAll_keeps hP ts vs (hk _)
  | .call e => exact eval_keeps hP e env _ (fun _ => hk _) h hp
  | .close name line => exact enclose_keeps _ _ _ (hk _) h hp
  | .block body => exact execAll_keeps hP body none env _ (fun flow => out_keeps env flow hk) h hp
  | .loopWhile condition body => exact again_keeps _ hk h hp
  | .loopUntil body condition => exact again_keeps _ hk h hp
  | .branch condition yes no =>
    simp only [Stat.exec]
    refine value_keeps hP condition env (fun v h hp => ?_) h hp
    split
    · exact execAll_keeps hP yes none env _ (fun flow => out_keeps env flow hk) h hp
    · exact execAll_keeps hP no none env _ (fun flow => out_keeps env flow hk) h hp
  | .count name start limit step body line =>
    simp only [Stat.exec]
    refine value_keeps hP start env (fun i => value_keeps hP limit env fun l => ?_) h hp
    have henter : ∀ s, Onward P fun h => match countLoop name i l s body env with
        | .error message => raise (env.place line) message h
        | .ok none => k (.next env) h
        | .ok (some loop) => .again loop h k := by
      intro s h hp
      dsimp only
      split
      · exact raise_keeps _ _ h hp
      · exact hk _ h hp
      · exact again_keeps _ hk h hp
    cases step with
    | none => exact henter (.int 1)
    | some e => exact value_keeps hP e env henter
  | .iterate names values body line =>
    refine evalList_keeps hP values env _ (fun vs h hp => ?_) h hp
    dsimp only
    split
    · exact again_keeps _ hk h hp
    · refine enclose_keeps _ _ _ (again_keeps _ fun flow => ?_) h hp
      exact out_keeps env flow hk
  | .ret values =>
    unfold Stat.exec
    split <;> rename_i heq <;> cases heq
    · refine value_keeps hP _ env (fun f => ?_) h hp
      exact evalList_keeps hP _ env _ fun vs h hp => hp
    · refine value_keeps hP _ env (fun o => index_keeps _ _ _ fun f => ?_) h hp
      exact evalList_keeps hP _ env _ fun vs h hp => hp
    · exact evalList_keeps hP _ env _ (fun vs => finish_keeps vs) h hp
  | .label name => exact hk _ h hp
  | .jump label => exact hk _ h hp

theorem execAll_keeps (hP : Lasting P) (body : List Stat) (sought : Option String) (env : Env)
    (k : Flow → Heap → Step) (hk : ∀ flow, Onward P (k flow)) :
    Onward P (Stat.execAll body sought env k) := by
  intro h hp
  match body with
  | [] =>
    unfold Stat.execAll
    cases sought <;> exact hk _ h hp
  | s :: rest =>
    unfold Stat.execAll
    split <;> rename_i heq <;> cases heq
    · exact again_keeps _ hk h hp
    · exact execAll_keeps hP rest _ env k hk h hp
    · refine exec_keeps hP s env _ (fun flow => ?_) h hp
      cases flow with
      | next env => exact execAll_keeps hP rest none env k hk
      | jump label pending => exact execAll_keeps hP rest (some label) env k hk

end

end

section
variable {P : Heap → Prop} (hP : Lasting P)
include hP

omit hP in
theorem next_keeps (env : Env) (rest : Loop) (flow : Flow) {k : Flow → Heap → Step}
    (hk : ∀ flow, Onward P (k flow)) : Onward P (Loop.next env rest flow k) := by
  cases flow with
  | next inner => exact again_keeps rest hk
  | jump label pending => exact hk _

theorem turnBody_keeps (body : Block) (inner env : Env) (rest : Loop) {k : Flow → Heap → Step}
    (hk : ∀ flow, Onward P (k flow)) : Onward P (Loop.turnBody body inner env rest k) :=
  execAll_keeps hP body none inner _ fun flow => out_keeps env flow fun flow => next_keeps env rest flow hk

theorem turn_keeps (l : Loop) {k : Flow → Heap → Step} (hk : ∀ flow, Onward P (k flow)) :
    Onward P (l.turn k) := by
  cases l with
  | whileTrue condition body env =>
    intro h hp
    simp only [Loop.turn]
    refine value_keeps hP condition env (fun v h hp => ?_) h hp
    split
    · exact turnBody_keeps hP body _ _ _ hk h hp
    · exact hk _ h hp
  | untilTrue body condition env =>
    refine execAll_keeps hP body none env _ fun flow => ?_
    cases flow with
    | next inner =>
      refine value_keeps hP condition inner fun v => out_keeps env _ fun flow h hp => ?_
      split
      · exact hk _ h hp
      · exact next_keeps _ _ _ hk h hp
    | jump label pending => exact out_keeps env _ fun flow => next_keeps env _ flow hk
  | countInt name i left step body env =>
    intro h hp
    cases left with
    | zero => exact hk _ h hp
    | succ left => exact turnBody_keeps hP body _ _ _ hk _ (bind_lasts hP env [name] [.int i] hp)
  | countFloat name x limit step body env =>
    intro h hp
    simp only [Loop.turn]
    by_cases hmore : (if Binary64.blt .zero step then x.ble limit else limit.ble x) = true
    · rw [if_pos hmore]
      exact turnBody_keeps hP body _ _ _ hk _ (bind_lasts hP env [name] [.float x] hp)
    · rw [if_neg hmore]
      exact hk _ h hp
  | iterate names f state control body env line =>
    refine fun h hp => ⟨hp, fun vs h hp => ?_⟩
    dsimp only
    split
    · exact hk _ h hp
    · exact turnBody_keeps hP body _ _ _ hk _ (bind_lasts hP env names vs hp)
  | labelled name rest sought env =>
    refine execAll_keeps hP rest sought env _ fun flow => ?_
    cases flow with
    | next inner => exact hk _
    | jump label pending =>
      intro h hp
      dsimp only
      split
      · exact leave_keeps _ (again_keeps _ hk) h hp
      · exact hk _ h hp

theorem enter_keeps (f : Function) (env : Env) (args : List Datum) : Onward P (f.enter env args) := by
  intro h hp
  obtain ⟨params, isVararg, body⟩ := f
  exact execAll_keeps hP body none _ _ (fun _ => finish_keeps []) _ (bind_lasts hP _ params args hp)

end

end ScriptHost.Lua
