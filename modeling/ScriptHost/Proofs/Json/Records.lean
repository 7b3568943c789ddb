import ScriptHost.Json.Decode
import ScriptHost.Proofs.Dict

/-!
# Records written and read

A written record is an object of the entries that are there, in the order of their keys.  A field finds
its entry wherever it stands and passes over the others, so a record is read back entry by entry; and a
field that refuses its entry makes the whole record unreadable.
-/

set_option autoImplicit false

namespace ScriptHost

namespace Json

theorem sortedItems_eq (items : List Json) : sortedItems items = items.map sorted := by
  induction items with
  | nil => rfl
  | cons j rest ih => rw [sortedItems, ih, List.map_cons]

theorem sortedMembers_eq (members : List (String × Json)) :
    sortedMembers members = members.map fun e => (e.1, e.2.sorted) := by
  induction members with
  | nil => rfl
  | cons e rest ih => rw [sortedMembers, ih, List.map_cons]

@[simp] theorem sorted_arr (items : List Json) : (arr items).sorted = .arr (items.map sorted) := by
  rw [sorted, sortedItems_eq]

@[simp] theorem sorted_obj (members : List (String × Json)) :
    (obj members).sorted = .obj (Dict.ofList (members.map fun e => (e.1, e.2.sorted))) := by
  rw [sorted, sortedMembers_eq]

mutual

theorem sorted_sorted : (j : Json) → j.sorted.sorted = j.sorted
  | .arr items => by rw [sorted, sorted, sortedItems_sorted items]
  | .obj members => by
    have hsame : sortedMembers (Dict.ofList (sortedMembers members)) = Dict.ofList (sortedMembers members) := by
      rw [sortedMembers_eq (Dict.ofList _)]
      refine (List.map_congr_left fun e he => ?_).trans (List.map_id _)
      rw [sortedMembers_sorted members e (Dict.mem_ofList he)]
      rfl
    rw [sorted, sorted, hsame, Dict.ofList_of_ordered (Dict.ofList_ordered _)]
  | .null => rfl
  | .bool _ => rfl
  | .int _ => rfl
  | .float _ => rfl
  | .str _ => rfl

theorem sortedItems_sorted : (items : List Json) → sortedItems (sortedItems items) = sortedItems items
  | [] => rfl
  | j :: rest => by rw [sortedItems, sortedItems, sorted_sorted j, sortedItems_sorted rest]

theorem sortedMembers_sorted : (members : List (String × Json)) → ∀ e ∈ sortedMembers members, e.2.sorted = e.2
  | [] => fun _ he => absurd he List.not_mem_nil
  | (key, j) :: rest => by
    rw [sortedMembers, List.forall_mem_cons]
    exact ⟨sorted_sorted j, sortedMembers_sorted rest⟩

end

theorem sorted_item {items : List Json} (h : (arr items).sorted = .arr items) {j : Json} (hj : j ∈ items) :
    j.sorted = j := by
  rw [sorted_arr, arr.injEq] at h
  rw [← h] at hj
  obtain ⟨i, -, rfl⟩ := List.mem_map.mp hj
  exact i.sorted_sorted

theorem sorted_member {members : List (String × Json)} (h : (obj members).sorted = .obj members)
    {e : String × Json} (he : e ∈ members) : e.2.sorted = e.2 := by
  rw [sorted_obj, obj.injEq] at h
  rw [← h] at he
  obtain ⟨i, -, rfl⟩ := List.mem_map.mp (Dict.mem_ofList he)
  exact i.2.sorted_sorted

end Json

namespace Fields

variable {α β : Type}

/-- Each entry that is there stands under its key, with its own members in order, and there are no other
members. -/
structure Written (entries : List (String × Option Json)) (members : List (String × Json)) : Prop where
  once : (entries.map (·.1)).Nodup
  keys : (members.map (·.1)).Nodup
  there : ∀ {name j}, (name, some j) ∈ entries → (name, j.sorted) ∈ members
  only : ∀ {name j}, (name, j) ∈ members → ∃ i, (name, some i) ∈ entries

theorem present_keys (entries : List (String × Option Json)) :
    ((entries.filterMap fun e => e.2.map (e.1, ·)).map (·.1)).Sublist (entries.map (·.1)) := by
  induction entries with
  | nil => exact .slnil
  | cons e rest ih =>
    obtain ⟨name, j⟩ := e
    cases j with
    | none => exact ih.cons name
    | some j => exact ih.cons_cons name

theorem mem_present {entries : List (String × Option Json)} {name : String} {j : Json} :
    (name, j) ∈ entries.filterMap (fun e => e.2.map (e.1, ·)) ↔ (name, some j) ∈ entries := by
  rw [List.mem_filterMap]
  constructor
  · rintro ⟨⟨key, i⟩, he, hi⟩
    obtain ⟨i, rfl, hpair⟩ := Option.map_eq_some_iff.mp hi
    obtain ⟨rfl, rfl⟩ := Prod.mk.inj hpair
    exact he
  · intro he
    exact ⟨_, he, rfl⟩

theorem record_written (entries : List (String × Option Json)) (h : (entries.map (·.1)).Nodup) :
    ∃ members, (Json.record entries).sorted = .obj members ∧ Written entries members := by
  let present := entries.filterMap fun e => e.2.map (e.1, ·)
  let inner := present.map fun e : String × Json => (e.1, e.2.sorted)
  have hkeys : (inner.map (·.1)).Nodup := by
    rw [List.map_map]
    exact h.sublist (present_keys entries)
  have hperm : (Dict.ofList inner).Perm inner := Dict.ofList_perm inner hkeys
  refine ⟨_, Json.sorted_obj present, h, ((hperm.map (·.1)).nodup_iff).mpr hkeys, ?_, ?_⟩
  · intro name j he
    exact hperm.mem_iff.mpr (List.mem_map.mpr ⟨(name, j), mem_present.mpr he, rfl⟩)
  · intro name j hm
    obtain ⟨⟨key, i⟩, hi, hpair⟩ := List.mem_map.mp (hperm.mem_iff.mp hm)
    obtain ⟨rfl, -⟩ := Prod.mk.inj hpair
    exact ⟨i, mem_present.mp hi⟩

theorem except_map_ok {ε : Type} {x : Except ε α} {f : α → β} {b : β} (h : x.map f = .ok b) :
    ∃ a, x = .ok a ∧ f a = b := by
  cases x with
  | error => cases h
  | ok a => exact ⟨a, rfl, Except.ok.inj h⟩

def Reads (r : Fields α) (members : List (String × Json)) (a : α) : Prop :=
  ∃ s, r.acceptAll members r.start = .ok s ∧ r.finish s = .ok a

def Refuses (r : Fields α) (members : List (String × Json)) (e : DecodeError) : Prop :=
  r.acceptAll members r.start = .error e

def Ends (r : Fields α) (members : List (String × Json)) (a : α) (e : DecodeError) : Bool → Prop
  -- reading the members ends with this record when it is fine, and with this error when it is not
  | true => r.Reads members a
  | false => r.Refuses members e

theorem decode_reads {r : Fields α} {members : List (String × Json)} {a : α} (h : r.Reads members a)
    (record : String) : r.decode record (.obj members) = .ok a := by
  obtain ⟨s, hs, ha⟩ := h
  simp only [decode, hs, ha]

theorem decode_refuses {r : Fields α} {members : List (String × Json)} {e : DecodeError}
    (h : r.Refuses members e) (record : String) : r.decode record (.obj members) = .error e := by
  rw [Refuses] at h
  simp only [decode, h]

theorem decode_ends {r : Fields α} {members : List (String × Json)} {a : α} {e : DecodeError} {fine : Bool}
    (h : r.Ends members a e fine) (record : String) :
    r.decode record (.obj members) = if fine then .ok a else .error e := by
  cases fine with
  | true => exact decode_reads h record
  | false => exact decode_refuses h record

/-- A record that is read is read from members, by their names or by their places. -/
theorem reads_of_decode {r : Fields α} {record : String} {j : Json} {a : α} (h : r.decode record j = .ok a)
    (hj : j.sorted = j) : ∃ members, r.Reads members a ∧ ∀ e ∈ members, e.2.sorted = e.2 := by
  unfold decode at h
  split at h
  · next members =>
    split at h
    · cases h
    · next s hs =>
      split at h
      · cases h
      · next b hb =>
        obtain rfl := Except.ok.inj h
        exact ⟨members, ⟨s, hs, hb⟩, fun e he => Json.sorted_member hj he⟩
  · next items =>
    split at h
    · cases h
    · next s hs =>
      split at h
      · cases h
      · next b hb =>
        split at h
        · cases h
        · obtain rfl := Except.ok.inj h
          exact ⟨_, ⟨s, hs, hb⟩, fun e he => Json.sorted_item hj (List.of_mem_zip he).2⟩
  · cases h

theorem acceptAll_pass {r : Fields α} {members : List (String × Json)} {s : r.State}
    (h : ∀ e ∈ members, r.accept e.1 e.2 s = .ok s) : r.acceptAll members s = .ok s := by
  induction members with
  | nil => rfl
  | cons e rest ih =>
    obtain ⟨he, hrest⟩ := List.forall_mem_cons.mp h
    simp only [acceptAll, he, ih hrest]

/-- A reader that only looks at one name ends as it does on what stands there. -/
theorem acceptAll_one {r : Fields α} {name : String}
    (hother : ∀ key j s, key ≠ name → r.accept key j s = .ok s) {members : List (String × Json)}
    (hkeys : (members.map (·.1)).Nodup) {j : Json} (hj : (name, j) ∈ members) (s : r.State) :
    r.acceptAll members s = r.accept name j s := by
  induction members with
  | nil => simp at hj
  | cons e rest ih =>
    obtain ⟨hnew, hrest⟩ := List.nodup_cons.mp hkeys
    rcases List.mem_cons.mp hj with rfl | hj
    · have hpass (s' : r.State) : r.acceptAll rest s' = .ok s' := by
        refine acceptAll_pass fun e he => hother e.1 e.2 s' ?_
        rintro rfl
        exact hnew (List.mem_map.mpr ⟨e, he, rfl⟩)
      rw [acceptAll]
      split
      · next e he => exact he.symm
      · next s' hs' => rw [hs', hpass]
    · have hne : e.1 ≠ name := by
        rintro rfl
        exact hnew (List.mem_map.mpr ⟨_, hj, rfl⟩)
      simp only [acceptAll, hother e.1 e.2 s hne, ih hrest hj]

section
variable {members : List (String × Json)} {name : String} {decode : Decoder α} {j : Json} {a : α}

/-- A field is read from its member, wherever that stands. -/
theorem required_member (hkeys : (members.map (·.1)).Nodup) (hj : (name, j) ∈ members)
    (hd : decode j = .ok a) : (required name decode).Reads members a := by
  have hother : ∀ key j s, key ≠ name → (required name decode).accept key j s = .ok s :=
    fun key j s hne => if_neg hne
  have hhere : (required name decode).accept name j none = .ok (some a) :=
    (if_pos rfl).trans (congrArg (Except.map some) hd)
  exact ⟨some a, (acceptAll_one hother hkeys hj none).trans hhere, rfl⟩

theorem optional_member (hkeys : (members.map (·.1)).Nodup) (hj : (name, j) ∈ members)
    (hd : decode j = .ok a) (absent : α) : (optional name decode absent).Reads members a := by
  have hother : ∀ key j s, key ≠ name → (optional name decode absent).accept key j s = .ok s :=
    fun key j s hne => if_neg hne
  exact ⟨a, (acceptAll_one hother hkeys hj absent).trans ((if_pos rfl).trans hd), rfl⟩

theorem optional_none (h : name ∉ members.map (·.1)) (absent : α) :
    (optional name decode absent).Reads members absent := by
  refine ⟨absent, acceptAll_pass fun e he => if_neg ?_, rfl⟩
  rintro rfl
  exact h (List.mem_map.mpr ⟨e, he, rfl⟩)

end

section
variable {entries : List (String × Option Json)} {members : List (String × Json)}
  (h : Written entries members) (name : String) (decode : Decoder α) {a : α}
include h

/-- A required field ends as its entry is decoded. -/
theorem required_acceptAll {j : Json} (hj : (name, some j) ∈ entries) (s : Option α) :
    (required name decode).acceptAll members s = (decode j.sorted).map some := by
  have hother : ∀ key j s, key ≠ name → (required name decode).accept key j s = .ok s :=
    fun key j s hne => if_neg hne
  exact (acceptAll_one hother h.keys (h.there hj) s).trans (if_pos rfl)

theorem required_reads {j : Json} (hj : (name, some j) ∈ entries) (hd : decode j.sorted = .ok a) :
    (required name decode).Reads members a := by
  have hsome : (decode j.sorted).map some = .ok (some a) := congrArg (Except.map some) hd
  exact ⟨some a, (required_acceptAll h name decode hj none).trans hsome, rfl⟩

theorem required_refuses {j : Json} (hj : (name, some j) ∈ entries) {e : DecodeError}
    (hd : decode j.sorted = .error e) : (required name decode).Refuses members e :=
  (required_acceptAll h name decode hj none).trans (congrArg (Except.map some) hd)

/-- A field whose value may have no reading. -/
theorem required_ends {j : Json} (hj : (name, some j) ∈ entries) {fine : Bool} {e : DecodeError}
    (hd : decode j.sorted = if fine then .ok a else .error e) : (required name decode).Ends members a e fine := by
  cases fine with
  | true => exact required_reads h name decode hj hd
  | false => exact required_refuses h name decode hj hd

theorem text_reads {s : String} (hs : (name, some (.str s)) ∈ entries) :
    (required name .string).Reads members s :=
  required_reads h name _ hs rfl

/-- So does an optional one. -/
theorem optional_acceptAll {j : Json} (hj : (name, some j) ∈ entries) (absent s : α) :
    (optional name decode absent).acceptAll members s = decode j.sorted := by
  have hother : ∀ key j s, key ≠ name → (optional name decode absent).accept key j s = .ok s :=
    fun key j s hne => if_neg hne
  exact (acceptAll_one hother h.keys (h.there hj) s).trans (if_pos rfl)

theorem optional_reads {j : Json} (hj : (name, some j) ∈ entries) (hd : decode j.sorted = .ok a)
    (absent : α) : (optional name decode absent).Reads members a :=
  ⟨a, (optional_acceptAll h name decode hj absent absent).trans hd, rfl⟩

theorem optional_refuses {j : Json} (hj : (name, some j) ∈ entries) {e : DecodeError}
    (hd : decode j.sorted = .error e) (absent : α) : (optional name decode absent).Refuses members e :=
  (optional_acceptAll h name decode hj absent absent).trans hd

theorem optional_ends {j : Json} (hj : (name, some j) ∈ entries) {fine : Bool} {e : DecodeError}
    (hd : decode j.sorted = if fine then .ok a else .error e) (absent : α) :
    (optional name decode absent).Ends members a e fine := by
  cases fine with
  | true => exact optional_reads h name decode hj hd absent
  | false => exact optional_refuses h name decode hj hd absent

/-- An entry that is left out is read as the value of an absent field. -/
theorem absent_reads (hn : (name, none) ∈ entries) (absent : α) :
    (optional name decode absent).Reads members absent := by
  refine ⟨absent, acceptAll_pass fun e he => if_neg ?_, rfl⟩
  rintro rfl
  obtain ⟨i, hi⟩ := h.only he
  have hone := List.inj_on_of_nodup_map h.once hn hi rfl
  simp at hone

/-- A field that is written only when it has a value. -/
theorem skipped_reads (write : α → Json) {o : Option α} (ho : (name, o.map write) ∈ entries)
    (hd : ∀ b ∈ o, decode (write b).sorted = .ok b) (hnull : ∀ b ∈ o, (write b).sorted ≠ .null) :
    (optional name (Decoder.optional decode) none).Reads members o := by
  cases o with
  | none => exact absent_reads h name _ ho none
  | some b =>
    refine optional_reads h name _ ho ?_ none
    have hsome : ∀ j, j ≠ .null → Decoder.optional decode j = (decode j).map some := by
      intro j hj
      cases j with
      | null => exact absurd rfl hj
      | _ => rfl
    rw [hsome _ (hnull b rfl), hd b rfl]
    rfl

end

section
variable {members : List (String × Json)}

theorem map_acceptAll (r : Fields α) (f : α → β) (s : r.State) :
    (r.map f).acceptAll members s = r.acceptAll members s := by
  induction members generalizing s with
  | nil => rfl
  | cons e rest ih =>
    simp only [acceptAll, map] at ih ⊢
    split
    · rfl
    · next s' _ => exact ih s'

theorem map_reads_iff {r : Fields α} {f : α → β} {b : β} :
    (r.map f).Reads members b ↔ ∃ a, r.Reads members a ∧ f a = b := by
  constructor
  · rintro ⟨s, hs, hb⟩
    obtain ⟨a, ha, hab⟩ := except_map_ok hb
    exact ⟨a, ⟨s, (map_acceptAll r f r.start).symm.trans hs, ha⟩, hab⟩
  · rintro ⟨a, ⟨s, hs, ha⟩, rfl⟩
    refine ⟨s, (map_acceptAll r f r.start).trans hs, ?_⟩
    simp only [map, ha]
    rfl

theorem map_reads {r : Fields α} {a : α} (f : α → β) (h : r.Reads members a) :
    (r.map f).Reads members (f a) := map_reads_iff.mpr ⟨a, h, rfl⟩

theorem seq_acceptAll {f : Fields (α → β)} {r : Fields α} {s s' : f.State} {t t' : r.State} :
    (f.seq r).acceptAll members (s, t) = .ok (s', t')
      ↔ f.acceptAll members s = .ok s' ∧ r.acceptAll members t = .ok t' := by
  induction members generalizing s t with
  | nil =>
    constructor
    · rintro ⟨⟩
      exact ⟨rfl, rfl⟩
    · rintro ⟨⟨⟩, ⟨⟩⟩
      rfl
  | cons e rest ih =>
    simp only [acceptAll, seq] at ih ⊢
    cases f.accept e.1 e.2 s with
    | error => simp
    | ok s₁ =>
      cases r.accept e.1 e.2 t with
      | error => simp
      | ok t₁ => exact ih

theorem seq_reads_iff {f : Fields (α → β)} {r : Fields α} {b : β} :
    (f.seq r).Reads members b ↔ ∃ g a, f.Reads members g ∧ r.Reads members a ∧ g a = b := by
  constructor
  · rintro ⟨⟨s, t⟩, hst, hb⟩
    obtain ⟨hs, ht⟩ := seq_acceptAll.mp hst
    simp only [seq] at hb
    split at hb
    · cases hb
    · next g hg =>
      obtain ⟨a, ha, hab⟩ := except_map_ok hb
      exact ⟨g, a, ⟨s, hs, hg⟩, ⟨t, ht, ha⟩, hab⟩
  · rintro ⟨g, a, ⟨s, hs, hg⟩, ⟨t, ht, ha⟩, rfl⟩
    refine ⟨(s, t), seq_acceptAll.mpr ⟨hs, ht⟩, ?_⟩
    simp only [seq, hg, ha]
    rfl

theorem seq_reads {f : Fields (α → β)} {r : Fields α} {g : α → β} {a : α} (hf : f.Reads members g)
    (hr : r.Reads members a) : (f.seq r).Reads members (g a) := seq_reads_iff.mpr ⟨g, a, hf, hr, rfl⟩

/-- Both end with the same error, or one of them with it and the other well. -/
theorem seq_acceptAll_error {f : Fields (α → β)} {r : Fields α} {s : f.State} {t : r.State}
    {e : DecodeError} (hf : f.acceptAll members s = .error e ∨ ∃ s', f.acceptAll members s = .ok s')
    (hr : r.acceptAll members t = .error e ∨ ∃ t', r.acceptAll members t = .ok t')
    (h : f.acceptAll members s = .error e ∨ r.acceptAll members t = .error e) :
    (f.seq r).acceptAll members (s, t) = .error e := by
  induction members generalizing s t with
  | nil => simp [acceptAll] at h
  | cons m rest ih =>
    simp only [acceptAll, seq] at ih hf hr h ⊢
    cases hs : f.accept m.1 m.2 s with
    | error => simpa [hs] using hf
    | ok s₁ =>
      cases ht : r.accept m.1 m.2 t with
      | error => simpa [ht] using hr
      | ok t₁ =>
        simp only [hs, ht] at hf hr h
        exact ih hf hr h

theorem map_ends {r : Fields α} {a : α} {e : DecodeError} {fine : Bool} (f : α → β)
    (h : r.Ends members a e fine) : (r.map f).Ends members (f a) e fine := by
  cases fine with
  | true => exact map_reads f h
  | false => exact (map_acceptAll r f r.start).trans h

theorem seq_ends {f : Fields (α → β)} {r : Fields α} {g : α → β} {a : α} {e : DecodeError}
    {fine fine' : Bool} (hf : f.Ends members g e fine) (hr : r.Ends members a e fine') :
    (f.seq r).Ends members (g a) e (fine && fine') := by
  cases fine with
  | true =>
    have hread : f.Reads members g := hf
    obtain ⟨s, hs, -⟩ := hread
    cases fine' with
    | true => exact seq_reads hf hr
    | false => exact seq_acceptAll_error (.inr ⟨s, hs⟩) (.inl hr) (.inr hr)
  | false =>
    refine seq_acceptAll_error (.inl hf) ?_ (.inl hf)
    cases fine' with
    | true =>
      have hread : r.Reads members a := hr
      obtain ⟨t, ht, -⟩ := hread
      exact .inr ⟨t, ht⟩
    | false => exact .inl hr

theorem acceptAll_invariant {r : Fields α} (Inv : r.State → Prop)
    (hstep : ∀ e ∈ members, ∀ {s s'}, Inv s → r.accept e.1 e.2 s = .ok s' → Inv s') {s s' : r.State}
    (hs : Inv s) (h : r.acceptAll members s = .ok s') : Inv s' := by
  induction members generalizing s with
  | nil => exact Except.ok.inj h ▸ hs
  | cons e rest ih =>
    obtain ⟨he, hrest⟩ := List.forall_mem_cons.mp hstep
    rw [acceptAll] at h
    split at h
    · cases h
    · next s₁ hs₁ => exact ih hrest (he hs hs₁) h

/-- What is read of an optional field is decoded from a member of its name, if it is not its default. -/
theorem optional_read {name : String} {decode : Decoder α} {absent a : α}
    (h : (optional name decode absent).Reads members a) :
    a = absent ∨ ∃ j, (name, j) ∈ members ∧ decode j = .ok a := by
  obtain ⟨s, hs, ha⟩ := h
  obtain rfl := Except.ok.inj ha
  let Inv (s : α) : Prop := s = absent ∨ ∃ j, (name, j) ∈ members ∧ decode j = .ok s
  have hstep : ∀ e ∈ members, ∀ {s s' : α}, Inv s →
      (optional name decode absent).accept e.1 e.2 s = .ok s' → Inv s' := by
    intro e he s s' hs haccept
    simp only [optional] at haccept
    split at haccept
    · next hname => exact .inr ⟨e.2, hname ▸ he, haccept⟩
    · exact Except.ok.inj haccept ▸ hs
  exact acceptAll_invariant Inv hstep (.inl rfl) hs

end

end Fields

namespace Decoder

variable {α : Type}

/-- A list is read back if each of its items is; otherwise it ends as one of its items does. -/
theorem list_written_if {decode : Decoder α} {write : α → Json} {items : List α} (fine : α → Bool)
    (e : DecodeError) (hd : ∀ a ∈ items, decode (write a).sorted = if fine a then .ok a else .error e) :
    list decode (Json.arr (items.map write)).sorted = if items.all fine then .ok items else .error e := by
  rw [Json.sorted_arr, List.map_map]
  show listItems decode (items.map _) = _
  induction items with
  | nil => rfl
  | cons a rest ih =>
    obtain ⟨ha, hrest⟩ := List.forall_mem_cons.mp hd
    rw [List.map_cons, listItems, Function.comp_apply, ha, ih hrest, List.all_cons]
    cases fine a with
    | false => rfl
    | true => cases rest.all fine <;> rfl

/-- Every item of a list that is read is read from an item. -/
theorem list_read {decode : Decoder α} {j : Json} {as : List α} (h : list decode j = .ok as)
    (hj : j.sorted = j) : ∀ a ∈ as, ∃ i, i.sorted = i ∧ decode i = .ok a := by
  cases j with
  | arr items =>
    have hitems : ∀ i ∈ items, i.sorted = i := fun i hi => Json.sorted_item hj hi
    clear hj
    rw [list] at h
    induction items generalizing as with
    | nil =>
      obtain rfl := Except.ok.inj h
      simp
    | cons i rest ih =>
      obtain ⟨hi, hrest⟩ := List.forall_mem_cons.mp hitems
      rw [listItems] at h
      split at h
      · cases h
      · next a ha =>
        split at h
        · cases h
        · next tail htail =>
          obtain rfl := Except.ok.inj h
          exact List.forall_mem_cons.mpr ⟨⟨i, hi, ha⟩, ih htail hrest⟩
  | _ => cases h

theorem list_written {decode : Decoder α} {write : α → Json} {items : List α}
    (hd : ∀ a ∈ items, decode (write a).sorted = .ok a) :
    list decode (Json.arr (items.map write)).sorted = .ok items := by
  have hfine := list_written_if (fun _ => true) default hd
  rwa [List.all_eq_true.mpr fun _ _ => rfl] at hfine

end Decoder

end ScriptHost
