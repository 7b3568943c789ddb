import Mathlib.Data.List.Infix
import Mathlib.Data.List.TakeWhile
import ScriptHost.Proofs.Decimal.Digits
import ScriptHost.Standard.Template

/-!
# What a template stands for

A text is cut, in one way, at its placeholders: numerals in braces.  The text between them holds none.
Filling a template puts an argument in the place of each placeholder whose number has one and copies
everything else, so what it put in is not cut again.
-/

set_option autoImplicit false

namespace ScriptHost.Template

def IsNumeral (cs : List Char) : Prop := cs ≠ [] ∧ ∀ c ∈ cs, c.isDigit = true

def braced (digits : List Char) : List Char := '\x7b' :: (digits ++ ['\x7d'])

def Plain (cs : List Char) : Prop := ∀ digits, IsNumeral digits → ¬ braced digits <:+: cs

def replaced (args : List Value) (digits : List Char) : List Char :=
  -- what a placeholder becomes: the argument of its number, or itself when there is none
  let n := Nat.ofDigitChars 10 digits 0
  if h : 1 ≤ n ∧ n ≤ args.length then (args.get ⟨n - 1, by omega⟩).display.toList else braced digits

/-- Pieces of a text, each the text before a placeholder and its digits, and the text after the last
one. -/
structure Cut where
  pieces : List (List Char × List Char)
  last : List Char

namespace Cut

def text (c : Cut) : List Char := c.pieces.flatMap (fun p => p.1 ++ braced p.2) ++ c.last

def filled (args : List Value) (c : Cut) : List Char :=
  c.pieces.flatMap (fun p => p.1 ++ replaced args p.2) ++ c.last

structure Of (c : Cut) (cs : List Char) : Prop where
  whole : c.text = cs
  numerals : ∀ p ∈ c.pieces, IsNumeral p.2
  plain : ∀ p ∈ c.pieces, Plain p.1
  last : Plain c.last

end Cut

theorem IsNumeral.not_open {digits : List Char} (h : IsNumeral digits) :
    '\x7b' ∉ digits ++ ['\x7d'] := by
  intro hmem
  rcases List.mem_append.mp hmem with hmem | hmem
  · exact absurd (h.2 _ hmem) (by decide)
  · exact absurd (List.mem_singleton.mp hmem) (by decide)

/-- A placeholder is found after its opening brace exactly when it stands there. -/
theorem placeholder_iff (cs digits : List Char) :
    placeholder? cs = some digits ↔ IsNumeral digits ∧ ∃ rest, cs = digits ++ '\x7d' :: rest := by
  constructor
  · intro h
    have hsplit : cs.takeWhile Json.isDigit ++ cs.dropWhile Json.isDigit = cs :=
      List.takeWhile_append_dropWhile
    have hdrop : cs.drop (cs.takeWhile Json.isDigit).length = cs.dropWhile Json.isDigit := by
      have hleft : (cs.takeWhile Json.isDigit ++ cs.dropWhile Json.isDigit).drop
          (cs.takeWhile Json.isDigit).length = cs.dropWhile Json.isDigit := List.drop_left
      rwa [hsplit] at hleft
    simp only [placeholder?, hdrop] at h
    split at h
    · cases h
    · next hsome =>
      split at h
      · next hclose =>
        obtain rfl := Option.some.inj h
        obtain ⟨rest, hrest⟩ := List.head?_eq_some_iff.mp hclose
        refine ⟨⟨?_, fun c hc => List.mem_takeWhile_imp hc⟩, rest, ?_⟩
        · simpa using hsome
        · rw [← hrest, hsplit]
      · cases h
  · rintro ⟨⟨hne, hdigits⟩, rest, rfl⟩
    have htake : (digits ++ '\x7d' :: rest).takeWhile Json.isDigit = digits := by
      have hall : ∀ c ∈ digits, Json.isDigit c = true := hdigits
      rw [List.takeWhile_append_of_pos hall, List.takeWhile_cons_of_neg (by decide), List.append_nil]
    simp [placeholder?, htake, hne]

/-- What is read without an opening brace lies within the text before the next one. -/
theorem ends_before {w r x rest : List Char} (hw : '\x7b' ∉ w) (h : w ++ r = x ++ rest)
    (hrest : ∀ c ∈ rest.head?, c = '\x7b') : w <+: x := by
  rcases List.append_eq_append_iff.mp h with ⟨more, rfl, -⟩ | ⟨beyond, rfl, rfl⟩
  · exact List.prefix_append w more
  · cases beyond with
    | nil => simp
    | cons c beyond => exact absurd (hrest c rfl) (by rintro rfl; simp at hw)

theorem Plain.tail {c : Char} {cs : List Char} (h : Plain (c :: cs)) : Plain cs :=
  fun digits hdigits hin => h digits hdigits (List.infix_cons hin)

/-- An opening brace in a plain text opens no placeholder, if the text ends there or goes on with a
brace. -/
theorem Plain.opens_none {text rest : List Char} (h : Plain ('\x7b' :: text))
    (hrest : ∀ c ∈ rest.head?, c = '\x7b') : placeholder? (text ++ rest) = none := by
  cases hfound : placeholder? (text ++ rest) with
  | none => rfl
  | some digits =>
    obtain ⟨hdigits, r, hr⟩ := (placeholder_iff _ _).mp hfound
    have hends : digits ++ ['\x7d'] <+: text := by
      refine ends_before hdigits.not_open (r := r) ?_ hrest
      rw [hr, List.append_assoc, List.singleton_append]
    exact absurd ((List.prefix_cons_inj _).mpr hends).isInfix (h digits hdigits)

theorem Plain.holds_none {text before digits after : List Char} (h : Plain text) (hdigits : IsNumeral digits) :
    text ≠ before ++ (braced digits ++ after) := by
  intro heq
  exact h digits hdigits ⟨before, after, by rw [List.append_assoc, ← heq]⟩

theorem plain_nil : Plain [] := by
  intro digits _ hin
  exact absurd (List.infix_nil.mp hin) (List.cons_ne_nil _ _)

theorem plain_cons {c : Char} {text : List Char} (rest : List Char) (h : Plain text)
    (hnone : c = '\x7b' → placeholder? (text ++ rest) = none) : Plain (c :: text) := by
  intro digits hdigits hin
  rcases List.infix_cons_iff.mp hin with hpre | hin
  · obtain ⟨hc, hpre⟩ := List.cons_prefix_cons.mp hpre
    obtain ⟨more, rfl⟩ := hpre
    have hfound := (placeholder_iff (digits ++ ['\x7d'] ++ more ++ rest) digits).mpr
      ⟨hdigits, more ++ rest, by simp⟩
    rw [hnone hc.symm] at hfound
    cases hfound
  · exact h digits hdigits hin

theorem fillFrom_skip (args : List Value) (skipped rest : List Char) :
    fillFrom args skipped.length (skipped ++ rest) = fillFrom args 0 rest := by
  induction skipped with
  | nil => rfl
  | cons c skipped ih => rw [List.length_cons, List.cons_append, fillFrom, ih]

theorem fillFrom_copied (args : List Value) {copied : List Char} (h : '\x7b' ∉ copied) (rest : List Char) :
    fillFrom args 0 (copied ++ rest) = copied ++ fillFrom args 0 rest := by
  induction copied with
  | nil => rfl
  | cons c copied ih =>
    obtain ⟨hc, hcopied⟩ := not_or.mp (mt List.mem_cons.mpr h)
    rw [List.cons_append, fillFrom, if_neg (Ne.symm hc), ih hcopied, List.cons_append]

theorem argument_eq (args : List Value) (n : Nat) :
    argument? args n = if h : 1 ≤ n ∧ n ≤ args.length then some (args.get ⟨n - 1, by omega⟩) else none := by
  unfold argument?
  by_cases hn : 1 ≤ n ∧ n ≤ args.length
  · rw [if_neg (by omega), dif_pos hn, List.getElem?_eq_getElem, List.get_eq_getElem]
  · rw [dif_neg hn]
    split
    · rfl
    · exact List.getElem?_eq_none (by omega)

theorem fillFrom_braced (args : List Value) {digits : List Char} (h : IsNumeral digits) (rest : List Char) :
    fillFrom args 0 (braced digits ++ rest) = replaced args digits ++ fillFrom args 0 rest := by
  have hfound : placeholder? (digits ++ ['\x7d'] ++ rest) = some digits :=
    (placeholder_iff _ _).mpr ⟨h, rest, by simp⟩
  rw [braced, List.cons_append, fillFrom, if_pos rfl, substitution?, hfound]
  simp only [Decimal.natOfDigits_eq h.2, argument_eq, replaced]
  by_cases hn : 1 ≤ Nat.ofDigitChars 10 digits 0 ∧ Nat.ofDigitChars 10 digits 0 ≤ args.length
  · -- what is left out is the rest of the placeholder
    have hskip := fillFrom_skip args (digits ++ ['\x7d']) rest
    rw [List.length_append, List.length_singleton] at hskip
    simp only [dif_pos hn, Option.map_some, hskip]
  · simp only [dif_neg hn, Option.map_none]
    exact congrArg ('\x7b' :: ·) (fillFrom_copied args h.not_open rest)

theorem fillFrom_plain (args : List Value) {text : List Char} (rest : List Char) (h : Plain text)
    (hrest : ∀ c ∈ rest.head?, c = '\x7b') :
    fillFrom args 0 (text ++ rest) = text ++ fillFrom args 0 rest := by
  induction text with
  | nil => rfl
  | cons c text ih =>
    rw [List.cons_append, fillFrom]
    by_cases hc : c = '\x7b'
    · subst hc
      rw [if_pos rfl, substitution?, h.opens_none hrest]
      exact congrArg ('\x7b' :: ·) (ih h.tail)
    · rw [if_neg hc, ih h.tail, List.cons_append]

namespace Cut

theorem of_nil (last cs : List Char) : Of ⟨[], last⟩ cs ↔ cs = last ∧ Plain last := by
  constructor
  · intro h
    exact ⟨h.whole.symm, h.last⟩
  · rintro ⟨rfl, h⟩
    exact ⟨rfl, by simp, by simp, h⟩

theorem of_cons (before digits last cs : List Char) (pieces : List (List Char × List Char)) :
    Of ⟨(before, digits) :: pieces, last⟩ cs ↔ Plain before ∧ IsNumeral digits ∧
      ∃ rest, cs = before ++ (braced digits ++ rest) ∧ Of ⟨pieces, last⟩ rest := by
  constructor
  · intro h
    obtain ⟨hdigits, hnumerals⟩ := List.forall_mem_cons.mp h.numerals
    obtain ⟨hbefore, hplain⟩ := List.forall_mem_cons.mp h.plain
    refine ⟨hbefore, hdigits, text ⟨pieces, last⟩, ?_, rfl, hnumerals, hplain, h.last⟩
    simp [← h.whole, text]
  · rintro ⟨hbefore, hdigits, rest, rfl, h⟩
    refine ⟨?_, List.forall_mem_cons.mpr ⟨hdigits, h.numerals⟩,
      List.forall_mem_cons.mpr ⟨hbefore, h.plain⟩, h.last⟩
    simp [← h.whole, text]

theorem filled_cons (args : List Value) (before digits last : List Char)
    (pieces : List (List Char × List Char)) :
    filled args ⟨(before, digits) :: pieces, last⟩ =
      before ++ (replaced args digits ++ filled args ⟨pieces, last⟩) := by
  simp [filled]

theorem braced_head (digits rest : List Char) : ∀ c ∈ (braced digits ++ rest).head?, c = '\x7b' := by
  simp [braced]

theorem fillFrom_eq (args : List Value) {c : Cut} {cs : List Char} (h : c.Of cs) :
    fillFrom args 0 cs = c.filled args := by
  obtain ⟨pieces, last⟩ := c
  induction pieces generalizing cs with
  | nil =>
    obtain ⟨rfl, hlast⟩ := (of_nil last cs).mp h
    simpa [fillFrom, filled] using fillFrom_plain args [] hlast (by simp)
  | cons p pieces ih =>
    obtain ⟨hbefore, hdigits, rest, rfl, hrest⟩ := (of_cons p.1 p.2 last cs pieces).mp h
    rw [fillFrom_plain args _ hbefore (braced_head p.2 rest), fillFrom_braced args hdigits rest, ih hrest,
      ← filled_cons]

/-- A first character that opens no placeholder belongs to the text before the first one. -/
theorem exists_of_cons {c : Char} {cs : List Char} (hnone : c = '\x7b' → placeholder? cs = none)
    (h : ∃ cut : Cut, cut.Of cs) : ∃ cut : Cut, cut.Of (c :: cs) := by
  obtain ⟨⟨pieces, last⟩, h⟩ := h
  cases pieces with
  | nil =>
    obtain ⟨rfl, hlast⟩ := (of_nil last cs).mp h
    have hplain := plain_cons [] hlast (by simpa using hnone)
    exact ⟨⟨[], c :: cs⟩, (of_nil _ _).mpr ⟨rfl, hplain⟩⟩
  | cons p pieces =>
    obtain ⟨hbefore, hdigits, rest, rfl, hrest⟩ := (of_cons p.1 p.2 last cs pieces).mp h
    have hplain := plain_cons (braced p.2 ++ rest) hbefore hnone
    exact ⟨⟨(c :: p.1, p.2) :: pieces, last⟩, (of_cons _ _ _ _ _).mpr ⟨hplain, hdigits, rest, rfl, hrest⟩⟩

theorem exists_of : (cs : List Char) → ∃ cut : Cut, cut.Of cs
  | [] => ⟨⟨[], []⟩, (of_nil [] []).mpr ⟨rfl, plain_nil⟩⟩
  | c :: cs => by
    by_cases hc : c = '\x7b'
    · cases hfound : placeholder? cs with
      | none => exact exists_of_cons (fun _ => hfound) (exists_of cs)
      | some digits =>
        obtain ⟨hdigits, rest, hcs⟩ := (placeholder_iff cs digits).mp hfound
        have hshorter : rest.length < cs.length := by
          simp [hcs]
          omega
        obtain ⟨⟨pieces, last⟩, h⟩ := exists_of rest
        refine ⟨⟨([], digits) :: pieces, last⟩, (of_cons _ _ _ _ _).mpr ⟨plain_nil, hdigits, rest, ?_, h⟩⟩
        simp [hc, hcs, braced]
    · exact exists_of_cons (fun h => absurd h hc) (exists_of cs)
termination_by cs => cs.length

/-- No placeholder begins in a plain text, if the text ends there or goes on with a brace. -/
theorem plain_ends {before digits after text rest : List Char} (hdigits : IsNumeral digits)
    (htext : Plain text) (h : before ++ (braced digits ++ after) = text ++ rest)
    (hrest : ∀ c ∈ rest.head?, c = '\x7b') : text.length ≤ before.length := by
  rcases List.append_eq_append_iff.mp h with ⟨more, rfl, hmore⟩ | ⟨beyond, rfl, -⟩
  · cases more with
    | nil => simp
    | cons c more =>
      simp only [braced, List.cons_append, List.cons.injEq] at hmore
      obtain ⟨rfl, hmore⟩ := hmore
      have hends : braced digits <+: '\x7b' :: more :=
        (List.prefix_cons_inj _).mpr (ends_before hdigits.not_open hmore hrest)
      have hin : braced digits <:+: before ++ '\x7b' :: more :=
        hends.isInfix.trans (List.suffix_append before _).isInfix
      exact absurd hin (htext digits hdigits)
  · simp

theorem braced_inj {digits digits' rest rest' : List Char} (h : IsNumeral digits) (h' : IsNumeral digits')
    (heq : braced digits ++ rest = braced digits' ++ rest') : digits = digits' ∧ rest = rest' := by
  simp only [braced, List.cons_append, List.cons.injEq, true_and, List.append_assoc,
    List.nil_append] at heq
  have hfound := (placeholder_iff _ digits).mpr ⟨h, rest, rfl⟩
  rw [heq, (placeholder_iff _ digits').mpr ⟨h', rest', rfl⟩] at hfound
  obtain rfl := Option.some.inj hfound
  exact ⟨rfl, (List.cons.inj (List.append_cancel_left heq)).2⟩

theorem of_unique {c c' : Cut} {cs : List Char} (h : c.Of cs) (h' : c'.Of cs) : c = c' := by
  obtain ⟨pieces, last⟩ := c
  obtain ⟨pieces', last'⟩ := c'
  induction pieces generalizing cs pieces' with
  | nil =>
    obtain ⟨rfl, hlast⟩ := (of_nil last cs).mp h
    cases pieces' with
    | nil =>
      obtain ⟨rfl, -⟩ := (of_nil last' cs).mp h'
      rfl
    | cons p pieces' =>
      obtain ⟨-, hdigits, rest, hcs, -⟩ := (of_cons p.1 p.2 last' cs pieces').mp h'
      exact absurd hcs (hlast.holds_none hdigits)
  | cons p pieces ih =>
    obtain ⟨hbefore, hdigits, rest, hcs, hrest⟩ := (of_cons p.1 p.2 last cs pieces).mp h
    cases pieces' with
    | nil =>
      obtain ⟨rfl, hlast⟩ := (of_nil last' cs).mp h'
      exact absurd hcs (hlast.holds_none hdigits)
    | cons p' pieces' =>
      obtain ⟨hbefore', hdigits', rest', hcs', hrest'⟩ := (of_cons p'.1 p'.2 last' cs pieces').mp h'
      -- neither first placeholder begins within the text before the other, so they begin together
      have heq : p.1 ++ (braced p.2 ++ rest) = p'.1 ++ (braced p'.2 ++ rest') := hcs.symm.trans hcs'
      have hlength : p.1.length = p'.1.length := Nat.le_antisymm
        (plain_ends hdigits' hbefore heq.symm (braced_head _ _))
        (plain_ends hdigits hbefore' heq (braced_head _ _))
      obtain ⟨hsame, heq⟩ := List.append_inj heq hlength
      obtain ⟨hdigits, rfl⟩ := braced_inj hdigits hdigits' heq
      obtain rfl : p = p' := Prod.ext hsame hdigits
      have htail := ih hrest pieces' hrest'
      simp only [mk.injEq] at htail
      rw [htail.1, htail.2]

theorem filled_nil (c : Cut) : c.filled [] = c.text := by
  have hreplaced : ∀ digits, replaced [] digits = braced digits := by
    intro digits
    refine dif_neg ?_
    rw [List.length_nil]
    omega
  simp only [filled, text, hreplaced]

end Cut

/-- Every template is cut at its placeholders in exactly one way.  Filled, it is the same pieces with each
placeholder whose number has an argument replaced by the display text of that argument, and everything
else as it was; without arguments it is the template. -/
theorem fill_eq (template : String) (args : List Value) :
    (∃ c : Cut, c.Of template.toList ∧ (∀ c' : Cut, c'.Of template.toList → c' = c) ∧
      fill template args = String.ofList (c.filled args)) ∧
    fill template [] = template := by
  obtain ⟨c, hc⟩ := Cut.exists_of template.toList
  refine ⟨⟨c, hc, fun c' hc' => Cut.of_unique hc' hc, ?_⟩, ?_⟩
  · rw [fill, Cut.fillFrom_eq args hc]
  · rw [fill, Cut.fillFrom_eq [] hc, Cut.filled_nil, hc.whole, String.ofList_toList]

-- the inner braces hold a numeral, the outer ones do not; what is put in looks like a placeholder
-- and stays
example : fill "\x7ba\x7b01\x7d\x7d \x7b2\x7d" [.string "\x7b1\x7d"] = "\x7ba\x7b1\x7d\x7d \x7b2\x7d" := by
  decide +kernel

end ScriptHost.Template
