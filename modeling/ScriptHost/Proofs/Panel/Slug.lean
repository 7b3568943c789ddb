import Mathlib
import ScriptHost.Panel

/-!
# Slugs and the ids made of them

The words of a name are its maximal runs of ASCII letters and digits.  A slug has them in lower case, with
one dash between neighbours, and such a text is its own slug.  The time at the end of an id has no dash, so
an id tells the slug and the time that it was made of.
-/

set_option autoImplicit false

namespace ScriptHost.Panel

def pieces (cs : List Char) : List (List Char) := cs.splitOnP fun c => !c.isAlphanum

def words (cs : List Char) : List (List Char) := (pieces cs).filter (· ≠ [])

def lowered (w : List Char) : List Char := w.map Char.toLower

def dashed (ws : List (List Char)) : List Char := ['-'].intercalate ws

def following (ws : List (List Char)) : List Char := ws.flatMap fun w => '-' :: w

theorem pieces_cons (cs : List Char) : ∃ w ws, pieces cs = w :: ws :=
  List.exists_cons_of_ne_nil (List.splitOnP_ne_nil _ cs)

@[simp] theorem pieces_word {c : Char} (hc : c.isAlphanum = true) (cs : List Char) :
    pieces (c :: cs) = (pieces cs).modifyHead (c :: ·) := by
  rw [pieces, List.splitOnP_cons_eq_if_modifyHead, if_neg (by simp [hc])]
  rfl

@[simp] theorem pieces_gap {c : Char} (hc : c.isAlphanum = false) (cs : List Char) :
    pieces (c :: cs) = [] :: pieces cs := by
  rw [pieces, List.splitOnP_cons_eq_if_modifyHead, if_pos (by simp [hc])]
  rfl

@[simp] theorem dashed_cons (w : List Char) (ws : List (List Char)) : dashed (w :: ws) = w ++ following ws := by
  induction ws generalizing w with
  | nil => simp [dashed, following]
  | cons w' ws ih =>
    have hstep : dashed (w :: w' :: ws) = w ++ ['-'] ++ dashed (w' :: ws) := List.intercalate_cons_cons
    rw [hstep, ih]
    simp [following]

def IsLow (c : Char) : Prop := c.isLower = true ∨ c.isDigit = true

theorem low_alphanum {c : Char} (hc : IsLow c) : c.isAlphanum = true := by
  rcases hc with hlower | hdigit
  · simp [Char.isAlphanum, Char.isAlpha, hlower]
  · simp [Char.isAlphanum, hdigit]

theorem digit_not_upper {c : Char} (hc : c.isDigit = true) : ¬ c.isUpper = true := by
  have hrange := Char.isDigit_iff_toNat.mp hc
  simp only [Char.isUpper, decide_eq_true_eq, not_and]
  intro hleast
  have hcode : 'A'.toNat ≤ c.toNat := hleast
  have hnine : '9'.toNat < 'A'.toNat := by decide
  exact absurd (hcode.trans hrange.2) (not_le.mpr hnine)

theorem lower_low {c : Char} (hc : c.isAlphanum = true) : IsLow c.toLower := by
  rcases (Bool.or_eq_true _ _).mp hc with halpha | hdigit
  · left
    rw [Char.isLower_toLower_eq_isAlpha, halpha]
  · right
    rw [Char.toLower_eq_of_not_isUpper (digit_not_upper hdigit), hdigit]

theorem low_lower {c : Char} (hc : IsLow c) : c.toLower = c :=
  Char.toLower_eq_of_not_isUpper (hc.elim Char.not_isUpper_of_isLower digit_not_upper)

theorem low_dash {c : Char} (hc : IsLow c) : c ≠ '-' := by
  rintro rfl
  exact absurd hc (by simp [IsLow])

def continued (cs : List Char) : List Char :=
  lowered ((pieces cs).headD []) ++ following (((pieces cs).tail.filter (· ≠ [])).map lowered)

def lowWords (cs : List Char) : List (List Char) := (words cs).map lowered

theorem continued_word {c : Char} (hc : c.isAlphanum = true) (cs : List Char) :
    continued (c :: cs) = c.toLower :: continued cs := by
  obtain ⟨w, ws, hpieces⟩ := pieces_cons cs
  simp [continued, pieces_word hc, hpieces, lowered]

theorem continued_gap {c : Char} (hc : c.isAlphanum = false) (cs : List Char) :
    continued (c :: cs) = following (lowWords cs) := by
  rw [continued, pieces_gap hc]
  rfl

@[simp] theorem lowWords_word {c : Char} (hc : c.isAlphanum = true) (cs : List Char) :
    ∃ w ws, lowWords (c :: cs) = w :: ws ∧ w ++ following ws = c.toLower :: continued cs := by
  obtain ⟨w, ws, hpieces⟩ := pieces_cons cs
  refine ⟨lowered (c :: w), (ws.filter (· ≠ [])).map lowered, ?_, ?_⟩
  · simp [lowWords, words, pieces_word hc, hpieces]
  · simp [continued, hpieces, lowered]

@[simp] theorem lowWords_gap {c : Char} (hc : c.isAlphanum = false) (cs : List Char) :
    lowWords (c :: cs) = lowWords cs := by
  rw [lowWords, words, pieces_gap hc, List.filter_cons_of_neg (by simp)]
  rfl

def trimmed (out : List Char) : List Char :=
  -- a text that was built from its end, without the dash that waits there
  (out.dropWhile (· == '-')).reverse

theorem trimmed_word {c : Char} (hc : c ≠ '-') (out : List Char) :
    trimmed (c :: out) = (c :: out).reverse := by
  rw [trimmed, List.dropWhile_cons_of_neg (by simpa using hc)]

@[simp] theorem slugStep_word {c : Char} (hc : c.isAlphanum = true) (out : List Char) :
    slugStep out c = c.toLower :: out := if_pos hc

theorem slugStep_gap {c d : Char} (hc : c.isAlphanum = false) (hd : d ≠ '-') (out : List Char) :
    slugStep (d :: out) c = '-' :: d :: out := by
  rw [slugStep, if_neg (by simp [hc])]
  · exact List.cons_ne_nil d out
  · exact fun rest h => hd (List.cons.inj h).1

theorem slugStep_waiting {c : Char} (hc : c.isAlphanum = false) (out : List Char) :
    slugStep ('-' :: out) c = '-' :: out := by
  rw [slugStep, if_neg (by simp [hc])]

theorem slugStep_nil {c : Char} (hc : c.isAlphanum = false) : slugStep [] c = [] := by
  rw [slugStep, if_neg (by simp [hc])]

/-- Reading a name, from a text that ends in a word, in a waiting dash, or has not begun. -/
theorem fold_trimmed (cs : List Char) :
    (∀ c out, c ≠ '-' → trimmed (cs.foldl slugStep (c :: out)) = (c :: out).reverse ++ continued cs) ∧
    (∀ c out, c ≠ '-' →
      trimmed (cs.foldl slugStep ('-' :: c :: out)) = (c :: out).reverse ++ following (lowWords cs)) ∧
    trimmed (cs.foldl slugStep []) = dashed (lowWords cs) := by
  induction cs with
  | nil =>
    refine ⟨fun c out hc => ?_, fun c out hc => ?_, rfl⟩
    · rw [List.foldl_nil, trimmed_word hc]
      exact (List.append_nil _).symm
    · exact (trimmed_word hc out).trans (List.append_nil _).symm
  | cons x cs ih =>
    obtain ⟨hword, hwaiting, hnone⟩ := ih
    simp only [List.foldl_cons]
    by_cases hx : x.isAlphanum = true
    · obtain ⟨w, ws, hwords, hcontinued⟩ := lowWords_word hx cs
      have hstart := hword x.toLower
      refine ⟨fun c out hc => ?_, fun c out hc => ?_, ?_⟩
      · rw [slugStep_word hx, hstart _ (low_dash (lower_low hx)), continued_word hx]
        simp
      · rw [slugStep_word hx, hstart _ (low_dash (lower_low hx)), hwords, following, List.flatMap_cons,
          ← following, List.cons_append, hcontinued]
        simp
      · rw [slugStep_word hx, hstart _ (low_dash (lower_low hx)), hwords, dashed_cons, hcontinued]
        rfl
    · have hx : x.isAlphanum = false := by simpa using hx
      refine ⟨fun c out hc => ?_, fun c out hc => ?_, ?_⟩
      · rw [slugStep_gap hx hc, hwaiting c out hc, continued_gap hx]
      · rw [slugStep_waiting hx, hwaiting c out hc, lowWords_gap hx]
      · rw [slugStep_nil hx, hnone, lowWords_gap hx]

structure Slugged (ws : List (List Char)) : Prop where
  nonempty : ws ≠ []
  filled : [] ∉ ws
  low : ∀ w ∈ ws, ∀ c ∈ w, IsLow c

theorem pieces_alphanum (cs : List Char) : ∀ w ∈ pieces cs, ∀ c ∈ w, c.isAlphanum = true := by
  induction cs with
  | nil => simp [pieces]
  | cons x cs ih =>
    by_cases hx : x.isAlphanum = true
    · obtain ⟨w, ws, hpieces⟩ := pieces_cons cs
      rw [hpieces] at ih
      obtain ⟨hw, hws⟩ := List.forall_mem_cons.mp ih
      rw [pieces_word hx, hpieces, List.modifyHead_cons]
      exact List.forall_mem_cons.mpr ⟨List.forall_mem_cons.mpr ⟨hx, hw⟩, hws⟩
    · rw [pieces_gap (by simpa using hx)]
      exact List.forall_mem_cons.mpr ⟨by simp, ih⟩

theorem lowWords_slugged {cs : List Char} (h : words cs ≠ []) : Slugged (lowWords cs) := by
  refine ⟨by simpa [lowWords] using h, ?_, ?_⟩
  · simp [lowWords, words, lowered]
  · intro w hw c hc
    obtain ⟨v, hv, rfl⟩ := List.mem_map.mp hw
    obtain ⟨b, hb, rfl⟩ := List.mem_map.mp hc
    exact lower_low (pieces_alphanum cs v (List.mem_of_mem_filter hv) b hb)

/-- A dashed text falls into its words. -/
theorem pieces_dashed {ws : List (List Char)} (h : Slugged ws) : pieces (dashed ws) = ws := by
  obtain ⟨hnonempty, -, hlow⟩ := h
  have hkept : ∀ w ∈ ws, ∀ c ∈ w, (!c.isAlphanum) = false := fun w hw c hc => by
    simp [low_alphanum (hlow w hw c hc)]
  clear hlow
  induction ws with
  | nil => exact absurd rfl hnonempty
  | cons w ws ih =>
    obtain ⟨hw, hws⟩ := List.forall_mem_cons.mp hkept
    cases ws with
    | nil =>
      rw [dashed, List.intercalate_singleton]
      exact List.splitOnP_eq_singleton hw
    | cons w' ws =>
      have hstep : dashed (w :: w' :: ws) = w ++ '-' :: dashed (w' :: ws) := by
        rw [dashed, List.intercalate_cons_cons, List.append_assoc]
        rfl
      rw [hstep, pieces, List.splitOnP_append_cons_of_forall_mem hw '-' (by decide)]
      exact congrArg (w :: ·) (ih (List.cons_ne_nil _ _) hws)

theorem slug_eq (name : String) : slug name =
    if words name.toList = [] then "untitled" else String.ofList (dashed (lowWords name.toList)) := by
  have hfold : ((name.toList.foldl slugStep []).dropWhile (· == '-')).reverse =
      dashed (lowWords name.toList) := (fold_trimmed name.toList).2.2
  unfold slug
  by_cases hnone : words name.toList = []
  · rw [lowWords, hnone] at hfold
    rw [if_pos hnone, List.reverse_eq_nil_iff.mp hfold]
  · have hwords := lowWords_slugged hnone
    have hne : dashed (lowWords name.toList) ≠ [] := by
      intro hempty
      have hpieces := pieces_dashed hwords
      rw [hempty] at hpieces
      exact hwords.filled (hpieces ▸ List.mem_singleton.mpr rfl)
    rw [if_neg hnone, ← hfold]
    split
    · next hempty =>
      rw [hempty] at hfold
      exact absurd hfold.symm hne
    · rfl

theorem untitled_slugged : Slugged ["untitled".toList] := by
  have hlower : "untitled".toList.all Char.isLower = true := by decide
  refine ⟨by decide, by decide, fun w hw c hc => .inl ?_⟩
  obtain rfl := List.mem_singleton.mp hw
  exact List.all_eq_true.mp hlower c hc

/-- Every slug is made of words. -/
theorem slug_words (name : String) : ∃ ws, Slugged ws ∧ (slug name).toList = dashed ws := by
  rw [slug_eq]
  by_cases hnone : words name.toList = []
  · rw [if_pos hnone]
    exact ⟨["untitled".toList], untitled_slugged, rfl⟩
  · rw [if_neg hnone, String.toList_ofList]
    exact ⟨_, lowWords_slugged hnone, rfl⟩

theorem slug_dashed {ws : List (List Char)} (h : Slugged ws) :
    slug (String.ofList (dashed ws)) = String.ofList (dashed ws) := by
  have hwords : words (dashed ws) = ws := by
    rw [words, pieces_dashed h]
    refine List.filter_eq_self.mpr fun w hw => ?_
    have hne : w ≠ [] := fun hempty => h.filled (hempty ▸ hw)
    simpa using hne
  have hlow : lowWords (dashed ws) = ws := by
    rw [lowWords, hwords]
    refine List.map_congr_left (fun w hw => ?_) |>.trans (List.map_id ws)
    exact List.map_congr_left (fun c hc => low_lower (h.low w hw c hc)) |>.trans (List.map_id w)
  rw [slug_eq, String.toList_ofList, hwords, hlow, if_neg h.nonempty]

/-- A dashed text has its dashes between words only. -/
theorem dashed_shape {ws : List (List Char)} (h : Slugged ws) : dashed ws ≠ [] ∧
    (∀ c ∈ dashed ws, IsLow c ∨ c = '-') ∧ ¬ ['-'] <+: dashed ws ∧ ¬ ['-'] <:+ dashed ws ∧
    ¬ ['-', '-'] <:+: dashed ws := by
  have hpieces := pieces_dashed h
  have hcut : ∀ before after, dashed ws = before ++ '-' :: after → ws = pieces before ++ pieces after := by
    intro before after hsplit
    rw [← hpieces, hsplit, pieces, List.splitOnP_append_cons _ _ (by decide)]
    rfl
  have hnil : pieces [] = [[]] := rfl
  refine ⟨?_, ?_, ?_, ?_, ?_⟩
  · intro hempty
    rw [hempty, hnil] at hpieces
    exact h.filled (hpieces ▸ List.mem_singleton_self _)
  · intro c hc
    obtain ⟨w, ws, rfl⟩ := List.exists_cons_of_ne_nil h.nonempty
    rw [dashed_cons, List.mem_append, following, List.mem_flatMap] at hc
    rcases hc with hc | ⟨v, hv, hc⟩
    · exact .inl (h.low w List.mem_cons_self c hc)
    · rcases List.mem_cons.mp hc with rfl | hc
      · exact .inr rfl
      · exact .inl (h.low v (List.mem_cons_of_mem w hv) c hc)
  · rintro ⟨after, hsplit⟩
    have hws := hcut [] after hsplit.symm
    exact h.filled (hws ▸ List.mem_append_left _ (List.mem_singleton_self _))
  · rintro ⟨before, hsplit⟩
    have hws := hcut before [] hsplit.symm
    exact h.filled (hws ▸ List.mem_append_right _ (List.mem_singleton_self _))
  · rintro ⟨before, after, hsplit⟩
    have hws := hcut before ('-' :: after) (by rw [← hsplit]; simp)
    rw [pieces_gap (by decide)] at hws
    exact h.filled (hws ▸ List.mem_append_right _ List.mem_cons_self)

/-- The last dash of a text. -/
theorem cut_at_last {a b c d : List Char} (hc : '-' ∉ c) (hd : '-' ∉ d)
    (h : a ++ '-' :: c = b ++ '-' :: d) : a = b ∧ c = d := by
  rcases List.append_eq_append_iff.mp h with ⟨more, rfl, hmore⟩ | ⟨more, rfl, hmore⟩
  · cases more with
    | nil => exact ⟨(List.append_nil a).symm, (List.cons.inj hmore).2⟩
    | cons x more =>
      obtain ⟨-, rfl⟩ := List.cons.inj hmore
      simp at hc
  · cases more with
    | nil => exact ⟨List.append_nil b, (List.cons.inj hmore).2.symm⟩
    | cons x more =>
      obtain ⟨-, rfl⟩ := List.cons.inj hmore
      simp at hd

theorem digits_undashed (n : ℕ) : '-' ∉ (toString n).toList := by
  intro hmem
  have hdigits : '-' ∈ Nat.toDigits 10 n := by rwa [← Nat.toList_repr]
  exact absurd (Nat.isDigit_of_mem_toDigits (by decide) (by decide) hdigits) (by decide)

theorem idOf_inj (n₁ n₂ : String) (t₁ t₂ : UInt64) :
    idOf n₁ t₁ = idOf n₂ t₂ ↔ slug n₁ = slug n₂ ∧ t₁ = t₂ := by
  constructor
  · intro h
    have hlists := congrArg String.toList h
    simp only [idOf, String.toList_append, List.append_assoc] at hlists
    have hparts := List.append_cancel_left hlists
    obtain ⟨hslug, htime⟩ := cut_at_last (digits_undashed _) (digits_undashed _) hparts
    refine ⟨String.toList_injective hslug, UInt64.toNat_inj.mp ?_⟩
    -- digits are read back as the number that they are the digits of
    have hdigits : Nat.toDigits 10 t₁.toNat = Nat.toDigits 10 t₂.toNat := by
      rwa [← Nat.toList_repr, ← Nat.toList_repr]
    rw [← Nat.ofDigitChars_ten_toDigits (n := t₁.toNat), hdigits, Nat.ofDigitChars_ten_toDigits]
  · rintro ⟨hslug, rfl⟩
    rw [idOf, idOf, hslug]

/-- A slug has the words of the name in lower case with a dash between neighbours, and is `untitled` when
there are none.  So it is a text of small letters and digits in which dashes stand one by one and inside
only, and is its own slug.  Two panels have one id exactly when slug and time are the same. -/
theorem slug_and_id :
    (∀ name, slug name =
        (if words name.toList = [] then "untitled" else String.ofList (dashed (lowWords name.toList))) ∧
      (slug name).toList ≠ [] ∧ (∀ c ∈ (slug name).toList, IsLow c ∨ c = '-') ∧
      ¬ ['-'] <+: (slug name).toList ∧ ¬ ['-'] <:+ (slug name).toList ∧
      ¬ ['-', '-'] <:+: (slug name).toList ∧ slug (slug name) = slug name) ∧
    ∀ n₁ n₂ t₁ t₂, idOf n₁ t₁ = idOf n₂ t₂ ↔ slug n₁ = slug n₂ ∧ t₁ = t₂ := by
  refine ⟨fun name => ⟨slug_eq name, ?_⟩, idOf_inj⟩
  obtain ⟨ws, hws, htext⟩ := slug_words name
  obtain ⟨hne, hchars, hfirst, hlast, htwice⟩ := dashed_shape hws
  have hslug : slug name = String.ofList (dashed ws) := by rw [← htext, String.ofList_toList]
  rw [htext]
  refine ⟨hne, hchars, hfirst, hlast, htwice, ?_⟩
  rw [hslug]
  exact slug_dashed hws

-- a letter that is not ASCII stands between two words
example : words "  HP / Mäx-9!! ".toList = ["HP".toList, "M".toList, "x".toList, "9".toList] ∧
    slug "  HP / Mäx-9!! " = "hp-m-x-9" := by
  decide

end ScriptHost.Panel
