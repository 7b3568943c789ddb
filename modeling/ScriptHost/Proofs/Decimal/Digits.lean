import Mathlib.Data.List.Basic
import ScriptHost.Json.Reader

/-!
# Digits and numbers

Decimal digits are read as the number that they denote, and printed from it.  Digits after those of a
positive number are read on from that number, and only zero is printed with a zero ahead.
-/

set_option autoImplicit false

namespace ScriptHost.Decimal

theorem digit_lt {c : Char} (h : c.isDigit = true) : c.toNat - '0'.toNat < 10 := by
  have hhigh : c.toNat ≤ '9'.toNat := (Char.isDigit_iff_toNat.mp h).2
  have hnine : '9'.toNat = 57 := rfl
  have hzero : '0'.toNat = 48 := rfl
  omega

theorem digitValue_digit {c : Char} (h : c.isDigit = true) :
    Json.digitValue? 10 c = some (c.toNat - '0'.toNat) := by
  have hrange : ('0' ≤ c && c ≤ '9') = true := h
  simp only [Json.digitValue?, hrange, if_true, digit_lt h]

theorem natOfDigits_eq {cs : List Char} (h : ∀ c ∈ cs, c.isDigit = true) :
    Json.natOfDigits 10 cs = Nat.ofDigitChars 10 cs 0 := by
  refine List.foldl_ext _ _ 0 fun n c hc => ?_
  rw [digitValue_digit (h c hc), Option.getD_some, Nat.mul_comm]

theorem toDigits_digit {c : Char} (h : c.isDigit = true) : Nat.toDigits 10 (c.toNat - '0'.toNat) = [c] := by
  have hlow : '0'.toNat ≤ c.toNat := (Char.isDigit_iff_toNat.mp h).1
  have hzero : '0'.toNat = 48 := rfl
  have hchar : (c.toNat - '0'.toNat).digitChar = c := by
    apply Char.toNat_inj.mp
    rw [Nat.toNat_digitChar_of_lt_ten (digit_lt h)]
    omega
  rw [Nat.toDigits_of_lt_base (digit_lt h), hchar]

/-- Digits after those of a positive number are read on from that number. -/
theorem toDigits_read {cs : List Char} (hc : ∀ c ∈ cs, c.isDigit = true) {n : Nat} (hn : 0 < n) :
    Nat.toDigits 10 (Nat.ofDigitChars 10 cs n) = Nat.toDigits 10 n ++ cs := by
  induction cs generalizing n with
  | nil => rw [Nat.ofDigitChars_nil, List.append_nil]
  | cons c cs ih =>
    have hdigit : c.isDigit = true := hc c List.mem_cons_self
    have hrest : ∀ d ∈ cs, d.isDigit = true := fun d hd => hc d (List.mem_cons_of_mem c hd)
    rw [Nat.ofDigitChars_cons, ih hrest (by omega),
      ← Nat.toDigits_append_toDigits (by decide) hn (digit_lt hdigit), toDigits_digit hdigit, List.append_assoc,
      List.singleton_append]

theorem lead_toDigits {n : Nat} (h : (Nat.toDigits 10 n).head? = some '0') : n = 0 := by
  induction n using Nat.strongRecOn with
  | ind n ih =>
    by_cases hsmall : n < 10
    · rw [Nat.toDigits_of_lt_base hsmall, List.head?_cons, Option.some.injEq] at h
      have hvalue := Nat.toNat_digitChar_of_lt_ten hsmall
      rw [h, show '0'.toNat = 48 from rfl] at hvalue
      omega
    · have hten : 10 ≤ n := Nat.le_of_not_lt hsmall
      rw [Nat.toDigits_of_base_le (by decide) hten, List.head?_append_of_ne_nil _ Nat.toDigits_ne_nil] at h
      have hzero := ih (n / 10) (Nat.div_lt_self (by omega) (by decide)) h
      omega

theorem toString_signed (n : Int) : (toString n).toList =
    if n < 0 then '-' :: Nat.toDigits 10 n.natAbs else Nat.toDigits 10 n.natAbs := by
  cases n with
  | ofNat n => exact Nat.toList_repr
  | negSucc n =>
    rw [if_pos (Int.negSucc_lt_zero n)]
    change ("-" ++ (n + 1).repr).toList = _
    rw [String.toList_append, Nat.toList_repr]
    rfl

end ScriptHost.Decimal
