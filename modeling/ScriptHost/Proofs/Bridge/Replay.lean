import ScriptHost.Proofs.Bridge.State

/-!
# Runs replay their accounts

Of all that happens in a run only the calls of `state` change what a session keeps.  Each of them finds what
those before it left, so what the session keeps in the end is read off the account, call by call, and so is
what every call answers.
-/

set_option autoImplicit false

namespace ScriptHost
open Lua Crossing

namespace Bridge

def Tidy (b : Bridge) : Prop := ∀ s ∈ b.sessions, Neat s.state

theorem start_tidy (id : Nat) (config : Config) : (Bridge.start id config).Tidy := by
  intro s hs
  obtain rfl := List.mem_singleton.mp hs
  exact neat_nil

theorem Aside.tidy {b c : Bridge} (h : Aside b c) (hb : b.Tidy) : c.Tidy := by
  intro s' hs'
  rcases h.leaving.states s' hs' with hempty | ⟨s, hs, hstate⟩
  · rw [hempty]
    exact neat_nil
  · rw [hstate]
    exact hb s hs

/-- What no step but a call can change stays so as long as there are no calls. -/
theorem Course.still {home : SessionId} {a b : Bridge} {P : Bridge → Prop}
    (hP : ∀ b c, Aside b c → P b → P c) (h : Course home a [] b) (ha : P a) : P b := by
  generalize hcalls : [] = calls at h
  induction h with
  | start => exact ha
  | aside _ hc ih => exact hP _ _ hc (ih hcalls)
  | standard => simp at hcalls
  | custom => simp at hcalls

theorem standard_tidy {b : Bridge} (hb : b.Tidy) (id : SessionId) (f : StandardFn) {vs : List Value}
    (hvs : ∀ v ∈ vs, v.Regular) : (b.standard id f vs).2.Tidy := by
  have hset : ∀ d, Neat d → (b.setState id d).Tidy := by
    intro d hd s hs
    rw [setState, update_sessions] at hs
    obtain ⟨t, ht, rfl⟩ := List.mem_map.mp hs
    split
    · exact hd
    · exact hb t ht
  have hold : ∀ {d}, b.stateOf id = .ok d → Neat d := by
    intro d hd
    unfold stateOf at hd
    split at hd
    · next s hs =>
      obtain rfl := Except.ok.inj hd
      exact hb s (mem_of_find hs).1
    · cases hd
  cases f with
  | stateSet =>
    simp only [standard]
    split
    · exact hb
    · next d hd =>
      split
      · exact hb
      · next d' hd' => exact hset d' ((set_stores (hold hd) hvs).1 d' hd').1
  | stateClear =>
    simp only [standard]
    split
    · exact hb
    · exact hset [] neat_nil
  | stateGet =>
    simp only [standard]
    split <;> exact hb
  | stateAll =>
    simp only [standard]
    split <;> exact hb
  | emitter node sink =>
    simp only [standard]
    split
    · exact hb
    · unfold emit
      split <;> exact hb
  | _ => exact hb

theorem callStandard_tidy {b : Bridge} (hb : b.Tidy) (id : SessionId) (f : StandardFn)
    (args : List Datum) : (b.callStandard id f args).2.Tidy := by
  have hargs := Course.still (fun _ _ => Aside.tidy) (outwardAll_course b id args : Course id b [] _) hb
  have hregular : ∀ vs, (b.outwardAll id args).1 = .ok vs → ∀ v ∈ vs, v.Regular := by
    intro vs hvs
    cases hs : b.find? id with
    | some s =>
      obtain ⟨-, -, -, -, hreceived⟩ := outwardAll_received hs args
      exact received_regular (hvs ▸ hreceived)
    | none =>
      cases args with
      | nil =>
        obtain rfl := Except.ok.inj hvs
        simp
      | cons d rest => simp [outwardAll, hs] at hvs
  unfold callStandard
  split
  · next e b₁ he =>
    rw [he] at hargs
    exact (Aside.unpin b).tidy hargs
  · next vs b₁ hvs =>
    rw [hvs] at hargs hregular
    have hserved := standard_tidy hargs id f (hregular vs rfl)
    split
    · next e b₂ he =>
      rw [he] at hserved
      exact (Aside.unpin b).tidy hserved
    · next v b₂ hv =>
      rw [hv] at hserved
      have hin := Course.still (fun _ _ => Aside.tidy) (inward_course b₂ id v : Course id b₂ [] _) hserved
      exact (Aside.unpin b).tidy hin

section
variable {home : SessionId} {a b : Bridge} {calls : List HostCall}

theorem Course.tidy (h : Course home a calls b) (ha : a.Tidy) : b.Tidy := by
  induction h with
  | start => exact ha
  | aside _ hc ih => exact hc.tidy ih
  | standard _ id f args _ ih => exact callStandard_tidy ih id f args
  | custom _ _ _ _ _ _ ih => exact ih

theorem snoc_split {α : Type} {xs before after : List α} {x c : α} (h : xs ++ [x] = before ++ c :: after) :
    (xs = before ∧ x = c ∧ after = []) ∨ ∃ rest, xs = before ++ c :: rest ∧ after = rest ++ [x] := by
  rcases List.eq_nil_or_concat after with rfl | ⟨rest, last, rfl⟩
  · obtain ⟨hxs, hx⟩ := List.append_inj' h rfl
    exact .inl ⟨hxs, (List.cons.inj hx).1, rfl⟩
  · have h' : xs ++ [x] = (before ++ c :: rest) ++ [last] := by simpa using h
    obtain ⟨hxs, hx⟩ := List.append_inj' h' rfl
    obtain rfl := (List.cons.inj hx).1
    exact .inr ⟨rest, hxs, by simp⟩

/-- Every call of a standard function was made somewhere on the way. -/
theorem Course.split (h : Course home a calls b) {before after : List HostCall} {c : HostCall}
    {f : StandardFn} (hcalls : calls = before ++ c :: after) (hf : c.function = .standard f) :
    ∃ b₁ id, Course home a before b₁ ∧ (∀ s, b₁.session = some s → s.id = home → id = home) ∧
      c = b₁.standardCall id f c.given ∧ Course home (b₁.callStandard id f c.given).2 after b := by
  induction h generalizing after with
  | start => simp at hcalls
  | aside _ hc ih =>
    obtain ⟨b₁, id, hbefore, hid, hcall, hafter⟩ := ih hcalls
    exact ⟨b₁, id, hbefore, hid, hcall, hafter.aside hc⟩
  | standard h id g args hid ih =>
    rcases snoc_split hcalls with ⟨rfl, rfl, rfl⟩ | ⟨rest, hrest, rfl⟩
    · obtain rfl : g = f := HostFn.standard.inj hf
      exact ⟨_, id, h, hid, rfl, .start⟩
    · obtain ⟨b₁, id₁, hbefore, hid₁, hcall, hafter⟩ := ih hrest
      exact ⟨b₁, id₁, hbefore, hid₁, hcall, hafter.standard id g args hid⟩
  | custom h name serial args received r ih =>
    rcases snoc_split hcalls with ⟨rfl, rfl, rfl⟩ | ⟨rest, hrest, rfl⟩
    · cases hf
    · obtain ⟨b₁, id, hbefore, hid, hcall, hafter⟩ := ih hrest
      exact ⟨b₁, id, hbefore, hid, hcall, hafter.custom name serial args received r⟩

end

def Open (home : SessionId) (b : Bridge) (s : Session) : Prop := b.session = some s ∧ s.id = home

section
variable {home id : SessionId} {a b : Bridge} {calls : List HostCall}

theorem open_only {s t : Session} (hs : Open home b s) (ht : Open home b t) : s = t :=
  Option.some.inj (hs.1.symm.trans ht.1)

theorem open_before_call {t : Session} {f : StandardFn} {args : List Datum}
    (ht : Open home (b.callStandard id f args).2 t) : ∃ s, Open home b s := by
  obtain ⟨-, hnames⟩ := callStandard_leads sameNames_calm b id f args
  rw [SameSession, ht.1] at hnames
  obtain ⟨s, hs, hname⟩ := Option.map_eq_some_iff.mp hnames.symm
  exact ⟨s, hs, hname.trans ht.2⟩

/-- A call by a script of the open session finds it and leaves it open. -/
theorem open_call {s : Session} (hb : b.Tidy) (hs : Open home b s) (f : StandardFn) (args : List Datum) :
    ∃ s', Open home (b.callStandard home f args).2 s' ∧ (b.standardCall home f args).Refines s s' := by
  obtain ⟨hopen, rfl⟩ := hs
  obtain ⟨s', hs', hrefines⟩ :=
    callStandard_refines (find_open hopen) (hb s (mem_open hopen)) f args
  obtain ⟨-, hnames⟩ := callStandard_leads sameNames_calm b s.id f args
  rw [SameSession, hopen] at hnames
  obtain ⟨t, ht, hname⟩ := Option.map_eq_some_iff.mp hnames
  obtain rfl := open_found ht hs' hname
  exact ⟨t, ⟨ht, hname⟩, hrefines⟩

@[simp] theorem replay_append (m : Kept) (calls : List HostCall) (c : HostCall) :
    m.replay (calls ++ [c]) = c.change (m.replay calls) := by
  simp [Kept.replay]

/-- What the session keeps in the end is what it kept, with the calls replayed on it. -/
theorem Course.replays (h : Course home a calls b) (ha : home.opening < a.openings) (htidy : a.Tidy)
    {s t : Session} (hs : Open home a s) (ht : Open home b t) :
    Dict.find? t.state = Kept.replay (Dict.find? s.state) calls := by
  induction h generalizing t with
  | start => rw [open_only hs ht, Kept.replay, List.foldl_nil]
  | aside h hc ih =>
    obtain ⟨hopened, -⟩ := h.back ha
    rcases hc.leaving.current t ht.1 with hnew | ⟨u, hu, hid, hstate⟩
    · rw [ht.2] at hnew
      omega
    · rw [hstate]
      exact ih ⟨hu, hid.symm.trans ht.2⟩
  | standard h id f args hid ih =>
    obtain ⟨u, hu⟩ := open_before_call ht
    obtain rfl := hid u hu.1 hu.2
    obtain ⟨s', hs', hrefines⟩ := open_call (h.tidy htidy) hu f args
    obtain rfl := open_only hs' ht
    simp [hrefines.changed, ih hu]
  | custom h name serial args received r ih =>
    rw [replay_append, ih ht]
    rfl

/-- Every call of a standard function found what the calls before it left, and answers by it. -/
theorem Course.refines (h : Course home a calls b) (ha : home.opening < a.openings) (htidy : a.Tidy)
    {s t : Session} (hs : Open home a s) (ht : Open home b t) {before after : List HostCall} {c : HostCall}
    {f : StandardFn} (hcalls : calls = before ++ c :: after) (hf : c.function = .standard f) :
    ∃ b₁ u v, Course home a before b₁ ∧ Open home b₁ u ∧ c = b₁.standardCall home f c.given ∧
      Open home (b₁.callStandard home f c.given).2 v ∧
      Course home (b₁.callStandard home f c.given).2 after b ∧
      Dict.find? u.state = Kept.replay (Dict.find? s.state) before ∧ c.Refines u v := by
  obtain ⟨b₁, id, hbefore, hid, hcall, hafter⟩ := h.split hcalls hf
  have hopened := (hbefore.standard id f c.given hid).back ha
  obtain ⟨w, hw⟩ := (hafter.back hopened.1).2 t ht.1 ht.2
  obtain ⟨u, hu⟩ := open_before_call hw
  obtain rfl := hid u hu.1 hu.2
  obtain ⟨v, hv, hrefines⟩ := open_call (hbefore.tidy htidy) hu f c.given
  rw [← hcall] at hrefines
  exact ⟨b₁, u, v, hbefore, hu, hcall, hv, hafter, hbefore.replays ha htidy hs hu, hrefines⟩

end

theorem release_keeps {b : Bridge} {s : Session} (hs : b.session = some s) :
    ∃ s', b.release.2.session = some s' ∧ s'.state = s.state := by
  simp only [Bridge.release, hs]
  exact ⟨_, rfl, rfl⟩

theorem reset_empties {b : Bridge} (hfree : b.busy = false) :
    b.reset.1 = .ok () ∧ ∃ s, b.reset.2.session = some s ∧ s.state = [] := by
  have hclose : b.close.1 = .ok () := by
    unfold close
    rw [if_neg (by simp [hfree])]
    split <;> rfl
  have hreset : b.reset = (.ok (), b.close.2.reopen) := by
    rcases hc : b.close with ⟨r, b₁⟩
    rw [hc] at hclose
    obtain rfl : r = .ok () := hclose
    simp only [reset, hc]
  rw [hreset]
  exact ⟨rfl, _, rfl, rfl⟩

def installing : List Bridge.Step := [⟨Host.none, 60, fun _ => false, .install⟩]

def keeping : List Bridge.Step := [
  -- two scripts: the first stores a list and takes a number away again, the second tries to store a
  -- function
  ⟨Host.none, 80, fun _ => false, .query (.execute
    "state.set('k', \x7b1, 2\x7d) state.set('gone', 3) state.set('gone')" "one")⟩,
  ⟨Host.none, 80, fun _ => false, .query (.execute
    "pcall(state.set, 'f', print) return state.get('k')[2]" "two")⟩]

end Bridge

end ScriptHost
