import ScriptHost.Decimal.Layout
import ScriptHost.Proofs.Decimal.Cell
import ScriptHost.Proofs.Decimal.Digits

/-!
# Reading a number back from its text

A positional text is read as the integer of all its digits over the power of ten of those behind the
point.  The positional form of a decimal reads back as the value of the decimal, and a natural number with
one decimal behind it as that number.
-/

set_option autoImplicit false

namespace ScriptHost

namespace Decimal

def whole (cs : List Char) : ℕ := Nat.ofDigitChars 10 (cs.filter (· ≠ '.')) 0

def behind (cs : List Char) : ℕ := (cs.dropWhile (· ≠ '.')).length - 1

def reading (cs : List Char) : ℚ := whole cs / 10 ^ behind cs

def Digits (cs : List Char) : Prop := ∀ c ∈ cs, c.isDigit = true

theorem digits_toDigits (n : ℕ) : Digits (Nat.toDigits 10 n) :=
  fun _ hc => Nat.isDigit_of_mem_toDigits (by norm_num) (by norm_num) hc

theorem digits_zeros (n : ℕ) : Digits (zeros n) := by
  intro c hc
  rw [List.eq_of_mem_replicate hc]
  decide

theorem digits_append {cs ds : List Char} (hc : Digits cs) (hd : Digits ds) : Digits (cs ++ ds) := by
  intro c h
  rcases List.mem_append.mp h with h | h
  · exact hc c h
  · exact hd c h

theorem digit_ne_point {c : Char} (hc : c.isDigit = true) : c ≠ '.' := by
  rintro rfl
  exact absurd hc (by decide)

section
variable {cs ds : List Char} (hc : Digits cs)
include hc

theorem filter_digits : cs.filter (· ≠ '.') = cs :=
  List.filter_eq_self.mpr fun c h => by simpa using digit_ne_point (hc c h)

theorem reading_digits : reading cs = Nat.ofDigitChars 10 cs 0 := by
  have hdrop : cs.dropWhile (· ≠ '.') = [] := by
    rw [← List.append_nil cs,
      List.dropWhile_append_of_pos fun c h => by simpa using digit_ne_point (hc c h)]
    rfl
  rw [reading, whole, behind, filter_digits hc, hdrop]
  simp

/-- Digits on both sides of the point. -/
theorem reading_point (hd : Digits ds) :
    reading (cs ++ '.' :: ds) = Nat.ofDigitChars 10 (cs ++ ds) 0 / 10 ^ ds.length := by
  have hfilter : (cs ++ '.' :: ds).filter (· ≠ '.') = cs ++ ds := by
    rw [List.filter_append, filter_digits hc, List.filter_cons_of_neg (by simp), filter_digits hd]
  have hdrop : (cs ++ '.' :: ds).dropWhile (· ≠ '.') = '.' :: ds := by
    rw [List.dropWhile_append_of_pos (fun c h => by simpa using digit_ne_point (hc c h))]
    rfl
  rw [reading, whole, behind, hfilter, hdrop, List.length_cons, Nat.add_sub_cancel]

end

theorem read_text (d : Decimal) : Nat.ofDigitChars 10 d.digitText 0 = d.digits :=
  Nat.ofDigitChars_ten_toDigits

theorem read_padded (d : Decimal) (k : ℕ) :
    Nat.ofDigitChars 10 (d.digitText ++ zeros k) 0 = d.digits * 10 ^ k := by
  rw [Nat.ofDigitChars_append, read_text, zeros, Nat.ofDigitChars_replicate_zero, Nat.mul_comm]

theorem read_shifted (d : Decimal) (k : ℕ) : Nat.ofDigitChars 10 (zeros k ++ d.digitText) 0 = d.digits := by
  rw [Nat.ofDigitChars_append, zeros, Nat.ofDigitChars_replicate_zero, Nat.mul_zero, read_text]

/-- The three positional forms: digits behind the point only, before it only, and on both sides. -/
theorem positional_cases {d : Decimal} (hd : d.digits ≠ 0) :
    (∃ k : ℕ, d.positional [] = ['0'] ++ '.' :: (zeros k ++ d.digitText) ∧
        d.scale = -((k + d.digitText.length : ℕ) : ℤ)) ∨
      (∃ k : ℕ, d.positional [] = d.digitText ++ zeros k ∧ d.scale = k) ∨
      ∃ before after, d.digitText = before ++ after ∧ d.positional [] = before ++ '.' :: after ∧
        d.scale = -(after.length : ℤ) := by
  have hbeq : (d.digits == 0) = false := by simpa using hd
  unfold positional
  simp only [hbeq, Bool.false_eq_true, if_false]
  by_cases hsmall : (d.digitText.length : ℤ) + d.scale ≤ 0
  · refine .inl ⟨(-((d.digitText.length : ℤ) + d.scale)).toNat, ?_, ?_⟩
    · rw [if_pos hsmall]
      rfl
    · omega
  rw [if_neg hsmall]
  by_cases hlarge : d.digitText.length ≤ ((d.digitText.length : ℤ) + d.scale).toNat
  · refine .inr (.inl ⟨((d.digitText.length : ℤ) + d.scale).toNat - d.digitText.length, ?_, ?_⟩)
    · rw [if_pos hlarge, List.append_nil]
    · omega
  · rw [if_neg hlarge]
    refine .inr (.inr ⟨_, _, (List.take_append_drop _ _).symm, rfl, ?_⟩)
    rw [List.length_drop]
    omega

theorem reading_positional {d : Decimal} (hd : d.digits ≠ 0) : reading (d.positional []) = d.value := by
  have hdigits : Digits d.digitText := digits_toDigits d.digits
  rcases positional_cases hd with ⟨k, htext, hscale⟩ | ⟨k, htext, hscale⟩ | ⟨before, after, hsplit, htext, hscale⟩
  · have hbehind : Digits (zeros k ++ d.digitText) := digits_append (digits_zeros k) hdigits
    have hlead : Digits ['0'] := digits_zeros 1
    have hzero : ['0'] ++ (zeros k ++ d.digitText) = zeros (k + 1) ++ d.digitText := rfl
    rw [htext, reading_point hlead hbehind, hzero, read_shifted, value, hscale, zpow_neg, zpow_natCast,
      List.length_append, zeros, List.length_replicate]
    rfl
  · rw [htext, reading_digits (digits_append hdigits (digits_zeros k)), read_padded, value, hscale, zpow_natCast]
    push_cast
    rfl
  · have hall : Digits (before ++ after) := hsplit ▸ hdigits
    have hbefore : Digits before := fun c hc => hall c (List.mem_append_left _ hc)
    have hafter : Digits after := fun c hc => hall c (List.mem_append_right _ hc)
    rw [htext, reading_point hbefore hafter, ← hsplit, read_text, value, hscale, zpow_neg,
      zpow_natCast]
    rfl

def Numeral (cs : List Char) : Prop := ∀ c ∈ cs, c.isDigit = true ∨ c = '.'

theorem numeral_digits {cs : List Char} (hc : Digits cs) : Numeral cs := fun c h => .inl (hc c h)

theorem numeral_point {cs ds : List Char} (hc : Digits cs) (hd : Digits ds) : Numeral (cs ++ '.' :: ds) := by
  intro c h
  rcases List.mem_append.mp h with h | h
  · exact .inl (hc c h)
  rcases List.mem_cons.mp h with rfl | h
  · exact .inr rfl
  · exact .inl (hd c h)

theorem numeral_positional {d : Decimal} (hd : d.digits ≠ 0) : Numeral (d.positional []) := by
  have hdigits : Digits d.digitText := digits_toDigits d.digits
  rcases positional_cases hd with ⟨k, htext, -⟩ | ⟨k, htext, -⟩ | ⟨before, after, hsplit, htext, -⟩
  · rw [htext]
    exact numeral_point (digits_zeros 1) (digits_append (digits_zeros k) hdigits)
  · rw [htext]
    exact numeral_digits (digits_append hdigits (digits_zeros k))
  · have hall : Digits (before ++ after) := hsplit ▸ hdigits
    rw [htext]
    exact numeral_point (fun c hc => hall c (List.mem_append_left _ hc))
      fun c hc => hall c (List.mem_append_right _ hc)

theorem numeral_unsigned {cs : List Char} (h : Numeral cs) : '-' ∉ cs := fun hm =>
  (h _ hm).elim (by decide) (by decide)

theorem numeral_finite {cs : List Char} (h : Numeral cs) : cs ≠ "inf".toList := by
  rintro rfl
  exact (h 'i' (by decide)).elim (by decide) (by decide)

theorem reading_one_decimal (n : ℕ) : reading (Nat.toDigits 10 n ++ ['.', '0']) = n := by
  have hzero : Nat.ofDigitChars 10 (Nat.toDigits 10 n ++ ['0']) 0 = n * 10 := by
    rw [Nat.ofDigitChars_append, Nat.ofDigitChars_ten_toDigits, show ['0'] = List.replicate 1 '0' from rfl,
      Nat.ofDigitChars_replicate_zero, pow_one, Nat.mul_comm]
  have hlast : Digits ['0'] := digits_zeros 1
  rw [reading_point (digits_toDigits n) hlast, hzero, Nat.cast_mul]
  simp

theorem digits_unsigned {cs : List Char} (h : Digits cs) : '-' ∉ cs := numeral_unsigned (numeral_digits h)

end Decimal

end ScriptHost
