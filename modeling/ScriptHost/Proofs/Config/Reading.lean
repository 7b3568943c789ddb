import Mathlib.Data.Int.Notation
import Mathlib.Data.List.Induction
import ScriptHost.Config

/-!
# Reading a configuration

A setting has a place: a section and a name in it.  A document is read by its inner nodes, in their order:
the first one that is at the place of a setting without saying a value for it decides the refusal, and
otherwise each setting is what the last node at its place says.
-/

set_option autoImplicit false

namespace ScriptHost

namespace Config

namespace Setting

def place : Setting → String × String
  | .sandbox => ("scripting", "sandbox")
  | .memoryLimit => ("scripting", "memory-limit")
  | .chunkName => ("scripting", "chunk-name")
  | .logCapacity => ("scripting", "log-capacity")
  | .debounceMs => ("ui", "debounce-ms")
  | .logFilter => ("log", "filter")

abbrev Value : Setting → Type
  | .sandbox => Bool
  | .memoryLimit => Option ℕ
  | .chunkName => String
  | .logCapacity => ℕ
  | .debounceMs => ℕ
  | .logFilter => String

def bool? : Kdl.Value → Option Bool
  | .bool b => some b
  | _ => none

def size? : Kdl.Value → Option ℕ
  -- of the numbers only integers of 64 bits without a sign are sizes
  | .integer i => if 0 ≤ i ∧ i < UInt64.size then some i.toNat else none
  | _ => none

def text? : Kdl.Value → Option String
  | .string t => some t
  | _ => none

def read? : (s : Setting) → Kdl.Value → Option s.Value
  -- a memory limit of zero is none
  | .sandbox => bool?
  | .memoryLimit => fun v => (size? v).map fun k => if k = 0 then none else some k
  | .chunkName => text?
  | .logCapacity => size?
  | .debounceMs => size?
  | .logFilter => text?

def valueIn? (s : Setting) (n : Kdl.Node) : Option s.Value := n.argument?.bind s.read?

def wantedSize (n : Kdl.Node) : String :=
  -- an integer that is no size lacks something else than what is no integer
  match n.argument? with
  | some (.integer _) => "non-negative integer"
  | _ => "integer"

def wanted (s : Setting) (n : Kdl.Node) : String :=
  match s with
  | .sandbox => "boolean"
  | .memoryLimit => wantedSize n
  | .chunkName => "string"
  | .logCapacity => wantedSize n
  | .debounceMs => wantedSize n
  | .logFilter => "string"

def refusal (s : Setting) (n : Kdl.Node) : ScriptError :=
  .invalidConfig (s.key ++ ": expected " ++ s.wanted n)

theorem key_place (s : Setting) : s.key = s.place.1 ++ "." ++ s.place.2 := by
  cases s <;> rfl

theorem place_inj {s t : Setting} (h : s.place = t.place) : s = t := by
  cases s <;> cases t <;> simp_all [place]

theorem place_undotted (s : Setting) : '.' ∉ s.place.1.toList ∧ '.' ∉ s.place.2.toList := by
  cases s <;> decide

theorem cut_at_dot {a b c d : List Char} (ha : '.' ∉ a) (hb : '.' ∉ b) (h : a ++ '.' :: b = c ++ '.' :: d) :
    a = c ∧ b = d := by
  rcases List.append_eq_append_iff.mp h with ⟨more, rfl, hmore⟩ | ⟨more, rfl, hmore⟩
  · cases more with
    | nil => exact ⟨(List.append_nil a).symm, (List.cons.inj hmore).2⟩
    | cons x more =>
      obtain ⟨-, rfl⟩ := List.cons.inj hmore
      simp at hb
  · cases more with
    | nil => exact ⟨List.append_nil c, (List.cons.inj hmore).2.symm⟩
    | cons x more =>
      obtain ⟨rfl, -⟩ := List.cons.inj hmore
      simp at ha

/-- A key has one point, so it is the key of a section and a name in one way only. -/
theorem key_iff (s : Setting) (sec name : String) : s.key = sec ++ "." ++ name ↔ s.place = (sec, name) := by
  rw [key_place]
  constructor
  · intro h
    have hlists := congrArg String.toList h
    simp only [String.toList_append, List.append_assoc] at hlists
    obtain ⟨hsec, hname⟩ := cut_at_dot s.place_undotted.1 s.place_undotted.2 hlists
    exact Prod.ext (String.toList_injective hsec) (String.toList_injective hname)
  · intro h
    rw [h]

theorem mem_all (s : Setting) : s ∈ all := by
  cases s <;> decide

theorem ofKey_some {key : String} {s : Setting} (h : s.key = key) : ofKey? key = some s := by
  cases hfound : ofKey? key with
  | none => exact absurd h (by simpa using List.find?_eq_none.mp hfound s s.mem_all)
  | some t =>
    have ht : t.key = key := by simpa using List.find?_some hfound
    have hplace : t.place = s.place := (key_iff t s.place.1 s.place.2).mp (by rw [ht, ← h, key_place])
    rw [place_inj hplace]

theorem ofKey_none {key : String} (h : ∀ s : Setting, s.key ≠ key) : ofKey? key = none := by
  refine List.find?_eq_none.mpr fun s _ => ?_
  simpa using h s

end Setting

def get (c : Config) : (s : Setting) → s.Value
  | .sandbox => c.sandbox
  | .memoryLimit => c.memoryLimit
  | .chunkName => c.chunkName
  | .logCapacity => c.logCapacity
  | .debounceMs => c.debounceMs
  | .logFilter => c.logFilter

def put (c : Config) : (s : Setting) → s.Value → Config
  | .sandbox, b => { c with sandbox := b }
  | .memoryLimit, limit => { c with memoryLimit := limit }
  | .chunkName, t => { c with chunkName := t }
  | .logCapacity, k => { c with logCapacity := k }
  | .debounceMs, k => { c with debounceMs := k }
  | .logFilter, t => { c with logFilter := t }

@[simp] theorem get_put_self (c : Config) (s : Setting) (v : s.Value) : (c.put s v).get s = v := by
  cases s <;> rfl

@[simp] theorem get_put_other (c : Config) {s t : Setting} (h : s ≠ t) (v : s.Value) :
    (c.put s v).get t = c.get t := by
  cases s <;> cases t <;> simp_all [put, get]

theorem ext_get {c d : Config} (h : ∀ s, c.get s = d.get s) : c = d := by
  obtain ⟨_, _, _, _, _, _⟩ := c
  obtain ⟨_, _, _, _, _, _⟩ := d
  obtain rfl := h .sandbox
  obtain rfl := h .memoryLimit
  obtain rfl := h .chunkName
  obtain rfl := h .logCapacity
  obtain rfl := h .debounceMs
  obtain rfl := h .logFilter
  rfl

theorem boolArgument_eq (key : String) (n : Kdl.Node) :
    boolArgument key n = (n.argument?.bind Setting.bool?).elim (.error (wrong key "boolean")) .ok := by
  rw [boolArgument]
  rcases n.argument? with _ | (t | i | x | b | _) <;> rfl

theorem stringArgument_eq (key : String) (n : Kdl.Node) :
    stringArgument key n = (n.argument?.bind Setting.text?).elim (.error (wrong key "string")) .ok := by
  rw [stringArgument]
  rcases n.argument? with _ | (t | i | x | b | _) <;> rfl

theorem naturalArgument_eq (key : String) (n : Kdl.Node) :
    naturalArgument key n =
      (n.argument?.bind Setting.size?).elim (.error (wrong key (Setting.wantedSize n))) .ok := by
  rw [naturalArgument, Setting.wantedSize]
  rcases n.argument? with _ | (t | i | x | b | _)
  case some.integer =>
    have hfits : (0 ≤ i ∧ i.toNat < UInt64.size) ↔ (0 ≤ i ∧ i < UInt64.size) := by
      omega
    simp only [hfits, Option.bind_some, Setting.size?]
    split <;> rfl
  all_goals rfl

theorem elim_map {α β : Type} (found : Option α) (e : ScriptError) (f : α → β) :
    (found.elim (Except.error e) Except.ok).map f =
      found.elim (Except.error e) fun v => Except.ok (f v) := by
  cases found <;> rfl

theorem set_eq (c : Config) (s : Setting) (n : Kdl.Node) :
    c.set s n = (s.valueIn? n).elim (.error (s.refusal n)) fun v => .ok (c.put s v) := by
  cases s with
  | sandbox =>
    rw [set, boolArgument_eq, elim_map]
    rfl
  | memoryLimit =>
    have hlimit : Setting.memoryLimit.valueIn? n =
        (n.argument?.bind Setting.size?).map fun k => if k = 0 then none else some k := by
      rw [Option.map_bind]
      rfl
    rw [set, naturalArgument_eq, elim_map, hlimit]
    cases n.argument?.bind Setting.size? <;> rfl
  | chunkName =>
    rw [set, stringArgument_eq, elim_map]
    rfl
  | logCapacity =>
    rw [set, naturalArgument_eq, elim_map]
    rfl
  | debounceMs =>
    rw [set, naturalArgument_eq, elim_map]
    rfl
  | logFilter =>
    rw [set, stringArgument_eq, elim_map]
    rfl

def inner (doc : Kdl.Document) : List (String × Kdl.Node) :=
  doc.flatMap fun sec => (sec.children?.getD []).map fun n => (sec.name, n)

def Gives (s : Setting) (x : String × Kdl.Node) : Prop := s.place = (x.1, x.2.name)

instance (s : Setting) (x : String × Kdl.Node) : Decidable (Gives s x) :=
  inferInstanceAs (Decidable (s.place = (x.1, x.2.name)))

def given (s : Setting) (nodes : List (String × Kdl.Node)) : List Kdl.Node :=
  (nodes.filter fun x => Gives s x).map (·.2)

def said (s : Setting) (nodes : List (String × Kdl.Node)) : Option s.Value :=
  (given s nodes).getLast?.bind s.valueIn?

def Faulty (x : String × Kdl.Node) : Prop := ∃ s, Gives s x ∧ s.valueIn? x.2 = none

def keyed (x : String × Kdl.Node) : String × Kdl.Node := (x.1 ++ "." ++ x.2.name, x.2)

theorem settingNodes_inner (doc : Kdl.Document) : settingNodes doc = (inner doc).map keyed := by
  simp only [settingNodes, inner, List.map_flatMap, List.map_map]
  rfl

theorem apply_gives {s : Setting} {x : String × Kdl.Node} (h : Gives s x) (c : Config) :
    c.apply (keyed x).1 (keyed x).2 =
      (s.valueIn? x.2).elim (.error (s.refusal x.2)) fun v => .ok (c.put s v) := by
  have hkey : s.key = (keyed x).1 := (Setting.key_iff s x.1 x.2.name).mpr h
  rw [apply, Setting.ofKey_some hkey]
  exact set_eq c s x.2

theorem apply_other {x : String × Kdl.Node} (h : ∀ s, ¬ Gives s x) (c : Config) :
    c.apply (keyed x).1 (keyed x).2 = .ok c := by
  have hkey : ∀ s : Setting, s.key ≠ (keyed x).1 := fun s hs => h s ((Setting.key_iff s x.1 x.2.name).mp hs)
  rw [apply, Setting.ofKey_none hkey]

@[simp] theorem given_append (s : Setting) (xs ys : List (String × Kdl.Node)) :
    given s (xs ++ ys) = given s xs ++ given s ys := by
  rw [given, List.filter_append, List.map_append, given, given]

@[simp] theorem given_self {s : Setting} {x : String × Kdl.Node} (h : Gives s x) : given s [x] = [x.2] := by
  simp [given, h]

theorem given_none {s : Setting} {nodes : List (String × Kdl.Node)} (h : ∀ x ∈ nodes, ¬ Gives s x) :
    given s nodes = [] := by
  simpa [given] using h

@[simp] theorem given_other {s : Setting} {x : String × Kdl.Node} (h : ¬ Gives s x) : given s [x] = [] :=
  given_none (by simpa using h)

theorem apply_said {x : String × Kdl.Node} (h : ¬ Faulty x) (c : Config) :
    ∃ c', c.apply (keyed x).1 (keyed x).2 = .ok c' ∧ ∀ s, c'.get s = (said s [x]).getD (c.get s) := by
  by_cases hgives : ∃ s, Gives s x
  · obtain ⟨s, hs⟩ := hgives
    obtain ⟨v, hv⟩ := Option.ne_none_iff_exists'.mp fun hnone => h ⟨s, hs, hnone⟩
    refine ⟨c.put s v, by rw [apply_gives hs, hv]; rfl, fun t => ?_⟩
    by_cases hst : s = t
    · subst hst
      rw [get_put_self, said, given_self hs]
      simp [hv]
    · have hother : ¬ Gives t x := fun ht => hst (Setting.place_inj (hs.trans ht.symm))
      rw [get_put_other c hst, said, given_other hother]
      rfl
  · have hnone : ∀ s, ¬ Gives s x := fun s hs => hgives ⟨s, hs⟩
    refine ⟨c, apply_other hnone c, fun s => ?_⟩
    rw [said, given_other (hnone s)]
    rfl

theorem said_later (s : Setting) (nodes : List (String × Kdl.Node)) {x : String × Kdl.Node}
    (h : ¬ Faulty x) : said s (nodes ++ [x]) = (said s [x]).or (said s nodes) := by
  rw [said, said, said, given_append]
  by_cases hs : Gives s x
  · obtain ⟨v, hv⟩ := Option.ne_none_iff_exists'.mp fun hnone => h ⟨s, hs, hnone⟩
    simp [given_self hs, hv]
  · rw [given_other hs, List.append_nil]
    rfl

theorem applyAll_append {xs : List (String × Kdl.Node)} {c c' : Config} (h : applyAll xs c = .ok c')
    (ys : List (String × Kdl.Node)) : applyAll (xs ++ ys) c = applyAll ys c' := by
  induction xs generalizing c with
  | nil =>
    obtain rfl := Except.ok.inj h
    rfl
  | cons x rest ih =>
    rw [List.cons_append, applyAll]
    rw [applyAll] at h
    split at h
    · cases h
    · exact ih h

theorem applyAll_said {nodes : List (String × Kdl.Node)} (h : ∀ x ∈ nodes, ¬ Faulty x) (c : Config) :
    ∃ c', applyAll (nodes.map keyed) c = .ok c' ∧ ∀ s, c'.get s = (said s nodes).getD (c.get s) := by
  -- by the last node, since that is the one that decides
  induction nodes using List.reverseRecOn with
  | nil => exact ⟨c, rfl, fun _ => rfl⟩
  | append_singleton rest x ih =>
    obtain ⟨c₁, hrest, hget₁⟩ := ih fun y hy => h y (List.mem_append_left _ hy)
    have hx : ¬ Faulty x := h x (by simp)
    obtain ⟨c₂, hlast, hget₂⟩ := apply_said hx c₁
    refine ⟨c₂, ?_, fun s => ?_⟩
    · rw [List.map_append, applyAll_append hrest, List.map_singleton, applyAll, hlast]
      rfl
    · rw [hget₂, hget₁, said_later s rest hx]
      cases said s [x] <;> rfl

theorem applyAll_faulty {before : List (String × Kdl.Node)} (h : ∀ x ∈ before, ¬ Faulty x) {s : Setting}
    {x : String × Kdl.Node} (hs : Gives s x) (hnone : s.valueIn? x.2 = none)
    (after : List (String × Kdl.Node)) (c : Config) :
    applyAll ((before ++ x :: after).map keyed) c = .error (s.refusal x.2) := by
  obtain ⟨c', hbefore, -⟩ := applyAll_said h c
  rw [List.map_append, applyAll_append hbefore, List.map_cons, applyAll, apply_gives hs, hnone]
  rfl

/-- Either no node is faulty, or there is a first one that is. -/
theorem sound_or_first (nodes : List (String × Kdl.Node)) : (∀ x ∈ nodes, ¬ Faulty x) ∨
    ∃ before x after, nodes = before ++ x :: after ∧ (∀ y ∈ before, ¬ Faulty y) ∧ Faulty x := by
  classical
  cases hfound : nodes.find? fun x => Faulty x with
  | none => exact .inl (by simpa using hfound)
  | some x =>
    obtain ⟨hx, before, after, hsplit, hbefore⟩ := List.find?_eq_some_iff_append.mp hfound
    exact .inr ⟨before, x, after, hsplit, by simpa using hbefore, by simpa using hx⟩

theorem ofDocument_said {doc : Kdl.Document} (h : ∀ x ∈ inner doc, ¬ Faulty x) :
    ∃ c, ofDocument doc = .ok c ∧ ∀ s, c.get s = (said s (inner doc)).getD (standard.get s) := by
  rw [ofDocument, settingNodes_inner]
  exact applyAll_said h standard

theorem ofDocument_error_iff (doc : Kdl.Document) (e : ScriptError) : ofDocument doc = .error e ↔
    ∃ before x after s, inner doc = before ++ x :: after ∧ (∀ y ∈ before, ¬ Faulty y) ∧ Gives s x ∧
      s.valueIn? x.2 = none ∧ e = s.refusal x.2 := by
  have hfaulty : ∀ before x after s, inner doc = before ++ x :: after → (∀ y ∈ before, ¬ Faulty y) →
      Gives s x → s.valueIn? x.2 = none → ofDocument doc = .error (s.refusal x.2) := by
    intro before x after s hsplit hbefore hs hnone
    rw [ofDocument, settingNodes_inner, hsplit]
    exact applyAll_faulty hbefore hs hnone after standard
  constructor
  · intro h
    rcases sound_or_first (inner doc) with hall | ⟨before, x, after, hsplit, hbefore, s, hs, hnone⟩
    · obtain ⟨c, hc, -⟩ := ofDocument_said hall
      rw [hc] at h
      cases h
    · rw [hfaulty before x after s hsplit hbefore hs hnone] at h
      exact ⟨before, x, after, s, hsplit, hbefore, hs, hnone, (Except.error.inj h).symm⟩
  · rintro ⟨before, x, after, s, hsplit, hbefore, hs, hnone, rfl⟩
    exact hfaulty before x after s hsplit hbefore hs hnone

end Config

end ScriptHost
