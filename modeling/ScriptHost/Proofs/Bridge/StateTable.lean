import ScriptHost.Proofs.Bridge.Replay

/-!
# The table of all that is kept

A script that asks for everything gets a new table.  A name that is the decimal text of a 64-bit integer is
that integer in it, as in every table that crosses; under any name's key the table has what asking for the
name alone answers.
-/

set_option autoImplicit false

namespace ScriptHost
open Lua Crossing

theorem tableKey_key (key : String) : (tableKey key).key? = some (tableKey key) := by
  unfold tableKey
  split <;> rfl

/-- Without a metatable a script that indexes a table gets what the table holds. -/
theorem Lua.index_bare {h : Heap} {a : Nat} (hbare : (h.table a).metatable = none) {key : Datum}
    (hkey : key.key? = some key) (spot : Spot) (k : Datum → Heap → Lua.Step) :
    Lua.index (.table a) key spot k h = k (h.get a key) h := by
  have hmeta : h.metamethod (.table a) "__index" = .nil := by
    simp only [Heap.metamethod, Heap.metatable?, hbare]
  rw [Lua.index, chainLimit]
  simp only [indexChain, hkey, hmeta]
  split
  · next hnil => rw [(isNil_iff _).mp hnil]
  · rfl

/-- A numeral is no key of a table that shows a map: its integer is. -/
theorem shows_numeral {h : Heap} {a : Nat} {m : Kept} (hm : Shows h a m) {key : String}
    (hkey : integerKey? key ≠ none) : h.get a (.text key) = .nil := by
  apply Table.get_absent
  intro hmem
  obtain ⟨other, -, hother⟩ := hm.keys _ hmem
  unfold tableKey at hother
  split at hother
  · simp [Datum.text] at hother
  · next hnone =>
    have hread : mapKey (.text key) = mapKey (.text other) := congrArg mapKey hother
    obtain rfl := Except.ok.inj ((textOf_text key).symm.trans (hread.trans (textOf_text other)))
    exact hkey hnone

/-- Only what is not kept is nil. -/
theorem neat_absent {d : Dict Value} (hd : Neat d) (key : String) :
    ((Dict.find? d key).getD .nil).isNil = true ↔ Dict.find? d key = none := by
  cases h : Dict.find? d key with
  | none => simp [Value.isNil]
  | some v => simpa using hd.there _ (Dict.mem_of_find h)

namespace Bridge

/-- A text is received as itself. -/
theorem outwardAll_text {b : Bridge} {id : SessionId} {s : Session} (hs : b.find? id = some s)
    (key : String) : ∃ b₁ s₁, b.outwardAll id [.text key] = (.ok [.string key], b₁) ∧
      b₁.find? id = some s₁ ∧ s₁.heap = s.heap ∧ s₁.state = s.state := by
  obtain ⟨s₁, hs₁, hheap, hstate, hreceived⟩ := outwardAll_received hs [.text key]
  rcases hargs : b.outwardAll id [.text key] with ⟨e | vs, b₁⟩
  · rw [hargs] at hreceived
    obtain ⟨-, d, hd, hstuck⟩ := hreceived
    obtain rfl := List.mem_singleton.mp hd
    have hcrosses : Crosses s.heap (.text key) := crosses_leaf (by simp [Datum.text]) key.isValidUTF8
    exact absurd hcrosses hstuck
  · rw [hargs] at hs₁ hreceived
    cases hreceived with
    | cons hu hnone =>
      obtain ⟨issued, hu⟩ := hu
      obtain rfl := unfolds_text hu
      cases hnone
      exact ⟨b₁, s₁, rfl, hs₁, hheap, hstate⟩

/-- Indexing the table of all that is kept agrees with asking for one name, as often as both are answered;
only a limit of the memory keeps them from it. -/
theorem stateAll_agrees (id : Nat) (config : Config) (earlier : List Bridge.Step) (replies : List Reply)
    (a b : Bridge) (s t : Session) (calls : List HostCall)
    (ha : perform (.start id config) earlier = some (replies, a)) (hs : a.session = some s)
    (h : Course s.id a calls b) (ht : b.session = some t) (hid : t.id = s.id) (key : String) :
    (t.heap.Unlimited → ∃ all d b₁ b₂, b.callStandard s.id .stateAll [] = (.ok all, b₁) ∧
      b₁.callStandard s.id .stateGet [.text key] = (.ok d, b₂)) ∧
    ∀ all d b₁ b₂, b.callStandard s.id .stateAll [] = (.ok all, b₁) →
      b₁.callStandard s.id .stateGet [.text key] = (.ok d, b₂) → ∃ u, b₂.find? s.id = some u ∧
      (∃ e, (∀ spot k, Lua.index all (tableKey key) spot k u.heap = k e u.heap) ∧
        Alike u.heap u.heap e d) ∧
      (d = .nil ↔ Kept.replay (Dict.find? s.state) calls key = none) ∧
      (integerKey? key ≠ none →
        ∀ spot k, Lua.index all (.text key) spot k u.heap = k .nil u.heap) := by
  have hrest := (performed_settles (start_atRest id config) earlier replies ha).rest
  have hopening := (hrest.sound.named s (mem_open hs)).2
  have hfirst : Course ⟨id, 0⟩ (.start id config) _ a := performed_course Nat.one_pos earlier replies ha
  have htidy := hfirst.tidy (start_tidy id config)
  have hreplay := h.replays hopening htidy ⟨hs, rfl⟩ ⟨ht, hid⟩
  have hneat := h.tidy htidy t (mem_open ht)
  have hfound : b.find? s.id = some t := hid ▸ find_open ht
  have hnone : b.outwardAll s.id [] = (.ok [], b) := rfl
  obtain ⟨s₁, hs₁, hstate₁, hallocator₁, hall⟩ := callStandard_all hnone hfound hneat
  obtain ⟨b₁, r, hargs, hr, hheapᵣ, hstateᵣ⟩ := outwardAll_text hs₁ key
  obtain ⟨u, hu, -, hone⟩ := callStandard_one hargs hr (by rwa [hstateᵣ, hstate₁])
  rw [hstateᵣ, hstate₁, hheapᵣ] at hone
  refine ⟨fun hfree => ?_, fun all d b₁' b₂ hcall hcall₂ => ?_⟩
  · obtain ⟨hlimit, -⟩ | ⟨table, -, -, hall, -⟩ := hall
    · exact absurd hfree hlimit
    · obtain ⟨hlimit, -⟩ | ⟨d, -, -, hone, -⟩ := hone
      · exact absurd (hallocator₁.trans hfree) hlimit
      · exact ⟨.table table, d, _, _, Prod.ext hall rfl, Prod.ext hone rfl⟩
  · obtain ⟨-, hall⟩ | ⟨table, ts, n, hall, hheap₁, hshows⟩ := hall
    · cases hall.symm.trans (congrArg Prod.fst hcall)
    obtain rfl : Datum.table table = all := Except.ok.inj (hall.symm.trans (congrArg Prod.fst hcall))
    obtain rfl : (b.callStandard s.id .stateAll []).2 = b₁' := congrArg Prod.snd hcall
    obtain ⟨-, hone⟩ | ⟨d', us, m, hone, hheap, hstands⟩ := hone
    · cases hone.symm.trans (congrArg Prod.fst hcall₂)
    obtain rfl : d' = d := Except.ok.inj (hone.symm.trans (congrArg Prod.fst hcall₂))
    obtain rfl : Prod.snd _ = b₂ := congrArg Prod.snd hcall₂
    -- the second call only adds tables, so the table of the first is still there
    have hcarries : Carries u.heap t.heap.tables.size ts := by
      rw [hheap, hheap₁]
      exact (carries_append (grown_append t.heap ts us ▸ carries_grown t.heap (ts ++ us))).1
    have hshown := hshows u.heap hcarries
    refine ⟨u, hu, ⟨u.heap.get table (tableKey key), ?_, ?_⟩, ?_, ?_⟩
    · exact fun spot k => Lua.index_bare hshown.bare (tableKey_key key) spot k
    · exact stands_alike (hshown.entry key) hstands
    · rw [← hreplay, ← isNil_iff, stands_isNil hstands, neat_absent hneat]
    · intro hkey spot k
      rw [Lua.index_bare hshown.bare rfl, shows_numeral hshown hkey]

def storing : List Bridge.Step :=
  [⟨Host.none, 80, fun _ => false, .query (.execute "state.set('1', 'x')" "one")⟩]

theorem stateAll_agrees_numeral :
    ∃ replies a s more b t, perform (.start 0 .standard) installing = some (replies, a) ∧
      a.session = some s ∧ perform a storing = some (more, b) ∧ b.session = some t ∧ t.id = s.id ∧
      ∃ all d b₁ b₂ u, b.callStandard s.id .stateAll [] = (.ok all, b₁) ∧
        b₁.callStandard s.id .stateGet [.text "1"] = (.ok d, b₂) ∧ b₂.find? s.id = some u ∧ d ≠ .nil ∧
        (∃ e, (∀ spot k, Lua.index all (.int 1) spot k u.heap = k e u.heap) ∧
          Alike u.heap u.heap e d) ∧
        ∀ spot k, Lua.index all (.text "1") spot k u.heap = k .nil u.heap := by
  have hends : ((perform (.start 0 .standard) installing).bind fun r =>
      r.2.session.bind fun s => (perform r.2 storing).bind fun q => q.2.session.map fun t =>
        (decide (t.id = s.id ∧ s.id.opening < r.2.openings) && t.heap.allocator.isNone,
          (Kept.replay (Dict.find? s.state) (Account.perform r.2 storing) "1").isSome)) =
      some (true, true) := by decide +kernel
  obtain ⟨⟨replies, a⟩, ha, hends⟩ := Option.bind_eq_some_iff.mp hends
  obtain ⟨s, hs, hends⟩ := Option.bind_eq_some_iff.mp hends
  obtain ⟨⟨more, b⟩, hb, hends⟩ := Option.bind_eq_some_iff.mp hends
  obtain ⟨t, ht, heq⟩ := Option.map_eq_some_iff.mp hends
  obtain ⟨hchecks, hstored⟩ := Prod.mk.inj heq
  obtain ⟨hnames, hfree⟩ := Bool.and_eq_true_iff.mp hchecks
  obtain ⟨hid, hopening⟩ := of_decide_eq_true hnames
  obtain ⟨hanswered, hagree⟩ := stateAll_agrees 0 .standard installing replies a b s t
    (Account.perform a storing) ha hs (performed_course hopening storing more hb) ht hid "1"
  obtain ⟨all, d, b₁, b₂, hall, hone⟩ := hanswered (Option.isNone_iff_eq_none.mp hfree)
  obtain ⟨u, hu, hsame, hnil, hnumeral⟩ := hagree all d b₁ b₂ hall hone
  refine ⟨replies, a, s, more, b, t, ha, hs, hb, ht, hid, all, d, b₁, b₂, u, hall, hone, hu, ?_, hsame,
    hnumeral (by decide)⟩
  intro hd
  rw [hnil.mp hd] at hstored
  cases hstored

def looking : List Bridge.Step :=
  [⟨Host.none, 80, fun _ => false, .query (.execute
  "state.set('1', 'x') return state.getAll()['1'] == nil and state.get('1') == 'x'" "one")⟩]

def Reply.truth? : Reply → Option Bool
  | .value (.ok (.bool answer)) => some answer
  | _ => none

theorem truth_eq {r : Reply} {answer : Bool} (h : r.truth? = some answer) :
    r = .value (.ok (.bool answer)) := by
  unfold Reply.truth? at h
  split at h
  · obtain rfl := Option.some.inj h
    rfl
  · cases h

/-- The text is kept under the numeral, but not found under it in the table. -/
theorem stateAll_differs :
    ∃ replies a b, perform (.start 0 .standard) installing = some (replies, a) ∧
      perform a looking = some ([.value (.ok (.bool true))], b) := by
  have hends : ((perform (.start 0 .standard) installing).bind fun r =>
      (perform r.2 looking).map fun q => q.1.map Reply.truth?) = some [some true] := by decide +kernel
  obtain ⟨⟨replies, a⟩, ha, hends⟩ := Option.bind_eq_some_iff.mp hends
  obtain ⟨⟨more, b⟩, hb, hmore⟩ := Option.map_eq_some_iff.mp hends
  obtain ⟨r, rfl, hr⟩ : ∃ r, more = [r] ∧ r.truth? = some true := by
    simpa [List.map_eq_cons_iff] using hmore
  rw [truth_eq hr] at hb
  exact ⟨replies, a, b, ha, hb⟩

end Bridge

end ScriptHost
