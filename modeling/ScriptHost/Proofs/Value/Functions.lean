import ScriptHost.Bridge.Standard
import ScriptHost.Proofs.Crossing.Received
import ScriptHost.Proofs.Ui.Built

/-!
# The host functions in a value

A script can hand a function of the host on only as a handle, so the only host functions in a value are
those that the host put there.  What the standard functions make of their arguments holds no others.
-/

set_option autoImplicit false

namespace ScriptHost

inductive Value.Only (K : HostFn → Prop) : Value → Prop
  | nil : Only K .nil
  | bool (b : Bool) : Only K (.bool b)
  | int (n : Int64) : Only K (.int n)
  | float (x : Binary64) : Only K (.float x)
  | string (s : String) : Only K (.string s)
  | array (items : List Value) (h : ∀ v ∈ items, Only K v) : Only K (.array items)
  | map (members : List (String × Value)) (h : ∀ e ∈ members, Only K e.2) : Only K (.map members)
  | function (f : HostFn) (hf : K f) : Only K (.function f)
  | callable (handle : Handle) : Only K (.callable handle)

def Value.Hostless (v : Value) : Prop := v.Only fun _ => False

def OnlyGives (K : HostFn → Prop) (r : Except ScriptError Value) : Prop := ∀ v, r = .ok v → v.Only K

theorem onlyGives_error (K : HostFn → Prop) (e : ScriptError) : OnlyGives K (.error e) := by
  intro v h
  cases h

theorem onlyGives_ok {K : HostFn → Prop} {v : Value} (hv : v.Only K) : OnlyGives K (.ok v) := by
  intro w h
  exact Except.ok.inj h ▸ hv

theorem onlyGives_map {α : Type} {K : HostFn → Prop} {r : Except ScriptError α} {f : α → Value}
    (hf : ∀ a, r = .ok a → (f a).Only K) : OnlyGives K (r.map f) := by
  cases r with
  | error e => exact onlyGives_error K e
  | ok a => exact onlyGives_ok (hf a rfl)

namespace Value

section
variable {K L : HostFn → Prop}

theorem only_mono (hKL : ∀ f, K f → L f) {v : Value} (hv : v.Only K) : v.Only L := by
  induction hv with
  | nil => exact .nil
  | bool b => exact .bool b
  | int n => exact .int n
  | float x => exact .float x
  | string s => exact .string s
  | array items _ ih => exact .array items ih
  | map members _ ih => exact .map members ih
  | function f hf => exact .function f (hKL f hf)
  | callable handle => exact .callable handle

theorem hostless_only {v : Value} (hv : v.Hostless) : v.Only K := only_mono (fun _ => False.elim) hv

theorem only_items {items : List Value} (h : (Value.array items).Only K) : ∀ v ∈ items, v.Only K := by
  cases h with
  | array _ h => exact h

theorem only_members {members : List (String × Value)} (h : (Value.map members).Only K) :
    ∀ e ∈ members, e.2.Only K := by
  cases h with
  | map _ h => exact h

theorem ofInt_only (n : Int) : (Value.ofInt n).Only K := by
  unfold Value.ofInt
  split
  · exact .int _
  · exact .float _

theorem strings_only (items : List String) : (Value.strings items).Only K := by
  refine .array _ fun v hv => ?_
  obtain ⟨s, -, rfl⟩ := List.mem_map.mp hv
  exact .string s

mutual

theorem ofJson_only (K : HostFn → Prop) (j : Json) : (ofJson j).Only K := by
  cases j with
  | null => exact .nil
  | bool b => exact .bool b
  | int n => exact ofInt_only n
  | float x => exact .float x
  | str s => exact .string s
  | arr items => exact .array _ (ofJsonItems_only K items)
  | obj members => exact .map _ (ofJsonMembers_only K members)

theorem ofJsonItems_only (K : HostFn → Prop) (items : List Json) :
    ∀ v ∈ ofJsonItems items, v.Only K := by
  cases items with
  | nil => simp [ofJsonItems]
  | cons j rest => exact List.forall_mem_cons.mpr ⟨ofJson_only K j, ofJsonItems_only K rest⟩

theorem ofJsonMembers_only (K : HostFn → Prop) (members : List (String × Json)) :
    ∀ e ∈ ofJsonMembers members, e.2.Only K := by
  cases members with
  | nil => simp [ofJsonMembers]
  | cons e rest => exact List.forall_mem_cons.mpr ⟨ofJson_only K e.2, ofJsonMembers_only K rest⟩

end

theorem only_find {d : Dict Value} (hd : ∀ e ∈ d, e.2.Only K) (key : String) :
    ((Dict.find? d key).getD .nil).Only K := by
  cases h : Dict.find? d key with
  | none => exact .nil
  | some v => exact hd _ (Dict.mem_of_find h)

theorem only_arg {args : List Value} (hargs : ∀ v ∈ args, v.Only K) (i : Nat) :
    (args[i]?.getD .nil).Only K := by
  cases h : args[i]? with
  | none => exact .nil
  | some v => exact hargs v (List.mem_of_getElem? h)

end

/-- What crosses from a script holds no function of the host: the script's functions become handles. -/
theorem unfolds_hostless {h : Lua.Heap} {issued : Handle → Lua.Datum → Prop} {d : Lua.Datum} {v : Value}
    (hu : Crossing.Unfolds h issued d v) : v.Hostless := by
  induction hu with
  | nil => exact .nil
  | bool b => exact .bool b
  | int n => exact .int n
  | float x => exact .float x
  | string s => exact .string s
  | function a handle _ => exact .callable handle
  | list a items hn hs hl _ ih =>
    refine .array items fun v hv => ?_
    obtain ⟨k, e, i, he, hi, rfl⟩ := Crossing.list_item hn hs hl hv
    exact ih k e i he hi
  | map a members hn hs hl hk _ ih =>
    refine .map _ fun e he => ?_
    obtain ⟨p, hp⟩ := Crossing.zip_of_mem_right hl (Dict.mem_ofList he)
    exact ih _ hp

end Value

section
variable {K : HostFn → Prop}

theorem componentInfo_only {args : List Value} : OnlyGives K (Bridge.componentInfo args) := by
  unfold Bridge.componentInfo
  split
  · exact onlyGives_ok .nil
  · refine onlyGives_map fun tag _ => ?_
    split
    · refine .map _ ?_
      simp only [List.forall_mem_cons]
      exact ⟨.bool _, .string _, .string _, Value.strings_only _, .string _, by simp⟩
    · exact .nil

theorem deepCopy_only (v : Value) : OnlyGives K (Tables.deepCopy v) := by
  intro w h
  unfold Tables.deepCopy at h
  split at h
  · exact Except.ok.inj h ▸ Value.ofJson_only K _
  · simp at h

theorem indexed_only {items : List Value} (hitems : ∀ v ∈ items, v.Only K) (i : Nat) :
    ∀ e ∈ Tables.indexed i items, e.2.Only K := by
  induction items generalizing i with
  | nil => simp [Tables.indexed]
  | cons v rest ih =>
    obtain ⟨hv, hrest⟩ := List.forall_mem_cons.mp hitems
    exact List.forall_mem_cons.mpr ⟨hv, ih hrest (i + 1)⟩

theorem entries_only {v : Value} {es : List (String × Value)} (hv : v.Only K)
    (h : Tables.entries? v = some es) : ∀ e ∈ es, e.2.Only K := by
  cases hv with
  | nil =>
    obtain rfl := Option.some.inj h
    simp
  | array items hitems =>
    obtain rfl := Option.some.inj h
    exact indexed_only hitems 1
  | map members hmembers =>
    obtain rfl := Option.some.inj h
    exact hmembers
  | _ => simp [Tables.entries?] at h

theorem mergeOnto_only {args : List Value} (hargs : ∀ v ∈ args, v.Only K) {merged d : Dict Value}
    (hmerged : ∀ e ∈ merged, e.2.Only K) (position : Nat)
    (h : Tables.mergeOnto merged position args = .ok d) : ∀ e ∈ d, e.2.Only K := by
  induction args generalizing merged position with
  | nil => exact Except.ok.inj h ▸ hmerged
  | cons v rest ih =>
    obtain ⟨hv, hrest⟩ := List.forall_mem_cons.mp hargs
    simp only [Tables.mergeOnto] at h
    split at h
    · next es hes =>
      refine ih hrest (fun e he => ?_) _ h
      rcases Dict.mem_fold_insert he with he | he
      · exact hmerged e he
      · exact entries_only hv hes e he
    · cases h

theorem merge_only {args : List Value} (hargs : ∀ v ∈ args, v.Only K) : OnlyGives K (Tables.merge args) :=
  onlyGives_map fun d hd => .map d (mergeOnto_only hargs (by simp) 1 hd)

theorem format_only {args : List Value} : OnlyGives K (Template.format args) := by
  intro v h
  unfold Template.format at h
  split at h
  · exact Except.ok.inj h ▸ .string _
  · simp at h

theorem stateGet_only {d : Dict Value} (hd : ∀ e ∈ d, e.2.Only K) {args : List Value} :
    OnlyGives K (State.get d args) := onlyGives_map fun key _ => Value.only_find hd key

theorem stateSet_only {d d' : Dict Value} (hd : ∀ e ∈ d, e.2.Only K) {args : List Value}
    (hargs : ∀ v ∈ args, v.Only K) (h : State.set d args = .ok d') : ∀ e ∈ d', e.2.Only K := by
  unfold State.set at h
  split at h
  · cases h
  · next key _ =>
    dsimp only at h
    split at h
    · cases h
    · split at h
      · obtain rfl := Except.ok.inj h
        exact fun e he => hd e (List.mem_filter.mp he).1
      · obtain rfl := Except.ok.inj h
        intro e he
        rcases Dict.mem_insert_key d key _ e he with rfl | he
        · exact Value.only_arg hargs 1
        · exact hd e he

theorem givenProps_only {v : Value} (hv : v.Only K) : ∀ e ∈ Factory.givenProps v, e.2.Only K := by
  intro e he
  unfold Factory.givenProps at he
  split at he
  · simp at he
  · split at he
    · simp at he
    · exact Value.only_members hv e he
    · simp at he
    · rw [List.mem_singleton.mp he]
      exact hv

theorem nodesIn_only {v : Value} (hv : v.Only K) : ∀ c ∈ Factory.nodesIn v, c.Only K := by
  intro c hc
  unfold Factory.nodesIn at hc
  split at hc
  · rw [List.mem_singleton.mp hc]
    exact hv
  · split at hc
    · exact Value.only_items hv c hc
    · simp at hc

theorem build_only {tag : String} {args : List Value} (hargs : ∀ v ∈ args, v.Only K) :
    OnlyGives K (Factory.build tag args) := by
  intro v h
  obtain ⟨rfl, -⟩ := Factory.build_ok h
  have hprops := givenProps_only (Value.only_arg hargs 0)
  have hcarrier : (Factory.carrier args).Only K := by
    unfold Factory.carrier
    split
    · exact Value.only_arg hargs 0
    · exact Value.only_arg hargs 1
  have hchildren := nodesIn_only hcarrier
  refine .map _ fun e he => ?_
  simp only [List.mem_append, List.mem_cons, List.not_mem_nil, or_false] at he
  rcases he with (rfl | he) | rfl | rfl
  · exact .bool true
  · split at he
    · simp at he
    · rw [List.mem_singleton.mp he]
      exact .array _ hchildren
  · exact .map _ hprops
  · exact .string tag

end

end ScriptHost
