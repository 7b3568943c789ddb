import ScriptHost.Proofs.Crossing.Entries

/-!
# Values that agree but for their handles

Which slots the functions of a table take depends on the order in which its entries are converted.  That
is all that depends on it: two written-out forms of one datum are equal but for the handles, and the
handles at the same place are for the same function.
-/

set_option autoImplicit false

namespace ScriptHost

namespace Value

/-- Two values that are equal but for their handles; of the handles at the same places `same` holds. -/
inductive Agrees (same : Handle → Handle → Prop) : Value → Value → Prop
  | nil : Agrees same .nil .nil
  | bool (b : Bool) : Agrees same (.bool b) (.bool b)
  | int (n : Int64) : Agrees same (.int n) (.int n)
  | float (x : Binary64) : Agrees same (.float x) (.float x)
  | string (s : String) : Agrees same (.string s) (.string s)
  | function (f : HostFn) : Agrees same (.function f) (.function f)
  | callable (x y : Handle) (hs : same x y) : Agrees same (.callable x) (.callable y)
  | array (items items' : List Value) (hl : items.length = items'.length)
      (hi : ∀ p ∈ items.zip items', Agrees same p.1 p.2) : Agrees same (.array items) (.array items')
  | map (members members' : List (String × Value)) (hl : members.length = members'.length)
      (hk : ∀ p ∈ members.zip members', p.1.1 = p.2.1)
      (hm : ∀ p ∈ members.zip members', Agrees same p.1.2 p.2.2) : Agrees same (.map members) (.map members')

variable {same : Handle → Handle → Prop}

theorem agrees_array {items items' : List Value} (h : List.Forall₂ (Agrees same) items items') :
    Agrees same (.array items) (.array items') := by
  obtain ⟨hl, hi⟩ := List.forall₂_iff_zip.mp h
  exact .array items items' hl fun p hp => hi hp

theorem agrees_map {members members' : List (String × Value)}
    (h : List.Forall₂ (fun e e' => e.1 = e'.1 ∧ Agrees same e.2 e'.2) members members') :
    Agrees same (.map members) (.map members') := by
  obtain ⟨hl, hm⟩ := List.forall₂_iff_zip.mp h
  exact .map members members' hl (fun p hp => (hm hp).1) fun p hp => (hm hp).2

/-- Values without handles that could differ are equal. -/
theorem Agrees.eq {v w : Value} (h : Agrees same v w) (hsame : ∀ x y, same x y → x = y) : v = w := by
  induction h with
  | callable x y hs => rw [hsame x y hs]
  | array items items' hl _ ih =>
    have heq : List.Forall₂ Eq items items' := List.forall₂_iff_zip.mpr ⟨hl, fun hp => ih _ hp⟩
    rw [List.forall₂_eq_eq_eq] at heq
    rw [heq]
  | map members members' hl hk _ ih =>
    have heq : List.Forall₂ Eq members members' :=
      List.forall₂_iff_zip.mpr ⟨hl, fun hp => Prod.ext (hk _ hp) (ih _ hp)⟩
    rw [List.forall₂_eq_eq_eq] at heq
    rw [heq]
  | _ => rfl

end Value

namespace Crossing
open Lua

def SameFunction (issued issued' : Handle → Datum → Prop) (x y : Handle) : Prop :=
  ∃ f, issued x f ∧ issued' y f

theorem mem_zip {α β : Type} {as : List α} {bs : List β} {j : Nat} (ha : j < as.length) (hb : j < bs.length) :
    (as[j], bs[j]) ∈ as.zip bs := by
  have hz : j < (as.zip bs).length := by simp; omega
  simpa using List.getElem_mem hz

section
variable {h : Heap} {issued issued' : Handle → Datum → Prop}

theorem text_unfolds {s : String} {v : Value} (hu : Unfolds h issued (.text s) v) : v = .string s := by
  generalize hd : Datum.text s = d at hu
  cases hu with
  | string t =>
    have htext := textOf_text s
    rw [Datum.string.inj hd, textOf_text] at htext
    rw [Except.ok.inj htext]
  | _ => simp [Datum.text] at hd

/-- The written-out forms of one datum agree. -/
theorem unfolds_agree {d : Datum} {v v' : Value} (hu : Unfolds h issued d v) (hu' : Unfolds h issued' d v') :
    v.Agrees (SameFunction issued issued') v' := by
  induction hu generalizing v' with
  | nil =>
    cases hu'
    exact .nil
  | bool b =>
    cases hu'
    exact .bool b
  | int n =>
    cases hu'
    exact .int n
  | float x =>
    cases hu'
    exact .float x
  | string s =>
    rw [text_unfolds hu']
    exact .string s
  | function a handle hi =>
    cases hu' with
    | function _ handle' hi' => exact .callable handle handle' ⟨_, hi, hi'⟩
  | list a items hn hs hl _ ih =>
    cases hu' with
    | map _ _ _ hs' => exact absurd hs hs'
    | list _ items' _ _ hl' hi' =>
      refine Value.agrees_array (List.forall₂_iff_get.mpr ⟨hl.trans hl'.symm, fun j hj hj' => ?_⟩)
      obtain ⟨k, hk, hidx⟩ := sequential_covers _ hn hs (j + 1) (by omega) (by simp; omega)
      obtain ⟨e, he, rfl⟩ := List.mem_map.mp hk
      have hitem := ih e.1 e.2 (j + 1) he hidx (hi' e.1 e.2 (j + 1) he hidx)
      rwa [Nat.add_sub_cancel, List.getD_eq_getElem?_getD, List.getD_eq_getElem?_getD, List.getElem?_eq_getElem hj,
        List.getElem?_eq_getElem hj'] at hitem
  | map a members hn hs hl hk _ ih =>
    cases hu' with
    | list _ _ _ hs' => exact absurd hs' hs
    | map _ members' _ _ hl' hk' hm' =>
      refine Value.agrees_map (Dict.ofList_forall₂ (List.forall₂_iff_get.mpr ⟨hl.trans hl'.symm, ?_⟩))
      intro j hj hj'
      have hpair := mem_zip (hl ▸ hj) hj
      have hpair' := mem_zip (hl' ▸ hj') hj'
      exact ⟨Except.ok.inj ((hk _ hpair).symm.trans (hk' _ hpair')), ih _ hpair (hm' _ hpair')⟩

/-- Without functions there are no handles, and the written-out forms are one. -/
theorem functionless_eq {d : Datum} {v v' : Value} (hu : Unfolds h issued d v) (hu' : Unfolds h issued' d v')
    (hf : ∀ f, ¬ Reaches h d (.function f)) : v = v' := by
  refine (unfolds_agree (functionless_unfolds hu hf) (functionless_unfolds hu' hf)).eq fun x y hsame => ?_
  obtain ⟨f, hnone, -⟩ := hsame
  exact hnone.elim

end

section
variable {h : Heap} {fuel : Nat} {path : List Nat}

/-- Each entry of a table that goes out has been converted. -/
theorem outwardTable_entry {convert : Conversion Datum Value} (hc : Adds convert)
    {pairs : List (Datum × Datum)} (hn : (pairs.map (·.1)).Nodup) {s s' : Issue} {v : Value}
    (hout : outwardTable convert pairs s = (.ok v, s')) {e : Datum × Datum} (he : e ∈ pairs) :
    ∃ w s₁ s₂, convert e.2 s₁ = (.ok w, s₂) := by
  rcases outwardTable_ok convert _ hn s s' v hout with ⟨-, entries, -, hentries⟩ | ⟨-, members, -, hmembers⟩
  · obtain ⟨hl, hz⟩ := outwardEntries_ok .ok convert hc _ s s' entries hentries
    obtain ⟨x, hx⟩ := zip_of_mem hl he
    obtain ⟨-, s₁, s₂, -, hconv⟩ := hz _ hx
    exact ⟨x.2, s₁, s₂, hconv⟩
  · obtain ⟨hl, hz⟩ := outwardEntries_ok mapKey convert hc _ s s' members hmembers
    obtain ⟨x, hx⟩ := zip_of_mem hl he
    obtain ⟨-, s₁, s₂, -, hconv⟩ := hz _ hx
    exact ⟨x.2, s₁, s₂, hconv⟩

/-- Whether a datum goes out does not depend on the slots that were given out before. -/
theorem outwardWithin_anytime {d : Datum} {s s' : Issue} {v : Value}
    (hout : outwardWithin h fuel path d s = (.ok v, s')) (t : Issue) :
    ∃ w t', outwardWithin h fuel path d t = (.ok w, t') := by
  have hcross := unfolds_crosses (outwardWithin_unfolds h fuel path d s s' v hout)
  induction fuel generalizing path d s s' v t with
  | zero =>
    by_cases ht : ∃ a, d = .table a
    · obtain ⟨a, rfl⟩ := ht
      simp [outwardWithin] at hout
    · exact leaf_succeeds h 0 path d t (fun a ha => ht ⟨a, ha⟩) (hcross.data d .here)
  | succ fuel ih =>
    by_cases ht : ∃ a, d = .table a
    · obtain ⟨a, rfl⟩ := ht
      simp only [outwardWithin] at hout ⊢
      split at hout
      · simp at hout
      · next hpath =>
        rw [if_neg hpath]
        refine outwardTable_succeeds _ _ t (fun e he => hcross.keys a e.1 e.2 .here he) fun e he u => ?_
        obtain ⟨w, s₁, s₂, hentry⟩ :=
          outwardTable_entry (outwardWithin_adds h fuel (a :: path)) (h.table a).pairs_nodup hout he
        exact ih hentry u (unfolds_crosses (outwardWithin_unfolds h fuel _ e.2 s₁ s₂ w hentry))
    · exact leaf_succeeds h _ path d t (fun a ha => ht ⟨a, ha⟩) (hcross.data d .here)

/-- Entries that become a list have the keys of one, and each datum is written out at the index of its
key. -/
theorem outwardTable_items {entries : List (Datum × Datum)} (hn : (entries.map (·.1)).Nodup) {s s' : Issue}
    {items : List Value}
    (hout : outwardTable (outwardWithin h fuel path) entries s = (.ok (.array items), s')) :
    Sequential (entries.map (·.1)) ∧ items.length = entries.length ∧
      ∀ k d i, (k, d) ∈ entries → Table.index? k = some i →
        ∃ v, items[i - 1]? = some v ∧ Unfolds h (Issued s s') d v := by
  rcases outwardTable_ok _ _ hn s s' _ hout with ⟨hs, values, heq, hvalues⟩ | ⟨-, _, heq, -⟩
  · obtain rfl := Value.array.inj heq
    refine ⟨hs, place_length _ _, fun k d i hkd hi => ?_⟩
    obtain ⟨v, s₁, s₂, hget, hb, hconv⟩ :=
      entries_placed (outwardWithin_adds h fuel path) hn hs hvalues hkd hi
    exact ⟨v, hget, unfolds_mono (issued_between hb) (outwardWithin_unfolds h fuel path d s₁ s₂ v hconv)⟩
  · cases heq

/-- Entries that become a list do so in any order: at each place of the two lists are written-out forms of
the same entry's datum. -/
theorem items_reordered {entries entries' : List (Datum × Datum)} (hn : (entries.map (·.1)).Nodup)
    (hp : entries'.Perm entries) {s s' : Issue} {items : List Value}
    (hout : outwardTable (outwardWithin h fuel path) entries s = (.ok (.array items), s')) :
    ∃ items' s'', outwardTable (outwardWithin h fuel path) entries' s = (.ok (.array items'), s'') ∧
      List.Forall₂
        (fun v v' => ∃ e ∈ entries, Unfolds h (Issued s s') e.2 v ∧ Unfolds h (Issued s s'') e.2 v')
        items items' := by
  have hkeys : (entries'.map (·.1)).Perm (entries.map (·.1)) := hp.map _
  have hn' : (entries'.map (·.1)).Nodup := hkeys.nodup_iff.mpr hn
  obtain ⟨hs, hlength, hitems⟩ := outwardTable_items hn hout
  have hs' := sequential_perm hkeys hs
  obtain ⟨w, s'', hout'⟩ := outwardTable_succeeds (outwardWithin h fuel path) entries' s
    (fun e he => by
      obtain ⟨i, hi, -⟩ := hs' e.1 (List.mem_map_of_mem he)
      exact key_of_index hi)
    (fun e he t => by
      obtain ⟨w, s₁, s₂, hentry⟩ :=
        outwardTable_entry (outwardWithin_adds h fuel path) hn hout (hp.mem_iff.mp he)
      exact outwardWithin_anytime hentry t)
  rcases outwardTable_ok _ _ hn' s s'' w hout' with ⟨-, values, rfl, -⟩ | ⟨hmap, -⟩
  swap
  · exact absurd hs' hmap
  obtain ⟨-, hlength', hitems'⟩ := outwardTable_items hn' hout'
  refine ⟨_, s'', hout', List.forall₂_iff_get.mpr ⟨?_, fun j hj hj' => ?_⟩⟩
  · rw [hlength, hlength', hp.length_eq]
  obtain ⟨k, hk, hidx⟩ := sequential_covers _ hn hs (j + 1) (by omega) (by rw [List.length_map]; omega)
  obtain ⟨e, he, rfl⟩ := List.mem_map.mp hk
  obtain ⟨v, hget, hu⟩ := hitems e.1 e.2 (j + 1) he hidx
  obtain ⟨v', hget', hu'⟩ := hitems' e.1 e.2 (j + 1) (hp.mem_iff.mpr he) hidx
  rw [Nat.add_sub_cancel, List.getElem?_eq_getElem hj] at hget
  rw [Nat.add_sub_cancel, List.getElem?_eq_getElem hj'] at hget'
  rw [List.get_eq_getElem, List.get_eq_getElem, Option.some.inj hget, Option.some.inj hget']
  exact ⟨e, he, hu, hu'⟩

end

end Crossing

end ScriptHost
