import Mathlib.Data.Nat.Log
import Mathlib.Tactic.NormNum
import Mathlib.Tactic.Ring
import ScriptHost.Binary

/-!
# Single precision within double precision

A ratio that a format can represent is rounded to itself, with the mantissa and the exponent that fill
the format.  Every finite number of single precision is such a ratio in double precision as well, so it
is widened exactly, and narrowing gives back its bits.  Infinities and NaNs stay what they are.
-/

set_option autoImplicit false

namespace ScriptHost

theorem roundDiv_exact (c : Nat) {d : Nat} (hd : 0 < d) : roundDiv (c * d) d = c := by
  have hdiv : c * d / d = c := Nat.mul_div_cancel c hd
  have hmod : c * d % d = 0 := Nat.mul_mod_left c d
  simp [roundDiv, hdiv, hmod, Nat.pos_iff_ne_zero.mp hd]

theorem log2_mul_two_pow {m : Nat} (hm : m ≠ 0) (k : Nat) : Nat.log2 (m * 2 ^ k) = Nat.log2 m + k := by
  rw [Nat.log2_eq_iff (mul_ne_zero hm (by positivity))]
  constructor
  · rw [pow_add]
    exact Nat.mul_le_mul_right _ (Nat.log2_self_le hm)
  · rw [Nat.add_right_comm, pow_add]
    exact Nat.mul_lt_mul_of_pos_right Nat.lt_log2_self (by positivity)

/-- `m * 2^q` is rounded to the mantissa `M` at the exponent `Q` that its size asks for, when it is a
whole multiple of `2^Q`. -/
theorem Format.roundRatio_exact (f : Format) {m M : Nat} {q Q : Int} (hm : m ≠ 0)
    (hQ : max (Nat.log2 m + q - f.fraction) f.lowest = Q)
    (hM : m * 2 ^ (q.toNat + (-Q).toNat) = M * 2 ^ ((-q).toNat + Q.toNat)) :
    f.roundRatio (m * Nat.pow 2 q.toNat) (Nat.pow 2 (-q).toNat)
      = min ((Q - f.lowest).toNat * Nat.pow 2 f.fraction + M) f.infinity := by
  have hnum : m * 2 ^ q.toNat ≠ 0 := mul_ne_zero hm (by positivity)
  have hguess : ((Nat.log2 (m * 2 ^ q.toNat) : Int) - Nat.log2 (2 ^ (-q).toNat)) = Nat.log2 m + q := by
    rw [log2_mul_two_pow hm, Nat.log2_two_pow]
    omega
  -- The number is not below the power of two that its logarithm says.
  have hbelow : ¬ m * 2 ^ q.toNat * 2 ^ (-(Nat.log2 m + q)).toNat
      < 2 ^ (-q).toNat * 2 ^ ((Nat.log2 m : Int) + q).toNat := by
    have hexp : (-q).toNat + ((Nat.log2 m : Int) + q).toNat
        = Nat.log2 m + (q.toNat + (-(Nat.log2 m + q)).toNat) := by omega
    rw [not_lt, mul_assoc, ← pow_add, ← pow_add, hexp, pow_add 2 (Nat.log2 m)]
    exact Nat.mul_le_mul_right _ (Nat.log2_self_le hm)
  have hround : roundDiv (m * 2 ^ q.toNat * 2 ^ (-Q).toNat) (2 ^ (-q).toNat * 2 ^ Q.toNat) = M := by
    rw [mul_assoc, ← pow_add, hM, pow_add]
    exact roundDiv_exact M (by positivity)
  simp only [roundRatio, Nat.pow_eq, hnum, if_false, hguess, hbelow, hQ, hround]

theorem xor_top {b n : Nat} (h : b < 2 ^ n) : b ^^^ 2 ^ n = b + 2 ^ n := by
  have hdiv : (b ^^^ 2 ^ n) / 2 ^ n = 1 := by
    rw [Nat.xor_div_two_pow, Nat.div_eq_of_lt h, Nat.div_self (by positivity)]
    rfl
  have hmod : (b ^^^ 2 ^ n) % 2 ^ n = b := by
    rw [Nat.xor_mod_two_pow, Nat.mod_self, Nat.xor_zero, Nat.mod_eq_of_lt h]
  have hsplit := Nat.div_add_mod (b ^^^ 2 ^ n) (2 ^ n)
  rw [hdiv, hmod] at hsplit
  omega

namespace Binary64

def signed (negative : Bool) (magnitude : Nat) : Binary64 :=
  let x : Binary64 := ⟨UInt64.ofNat magnitude⟩
  if negative then x.neg else x

theorem signed_bits (negative : Bool) {magnitude : Nat} (h : magnitude < 2 ^ 63) :
    (signed negative magnitude).bits.toNat = magnitude + if negative then 2 ^ 63 else 0 := by
  have hof : (UInt64.ofNat magnitude).toNat = magnitude := UInt64.toNat_ofNat_of_lt' (by
    simp only [UInt64.size]
    omega)
  cases negative with
  | false => exact hof
  | true =>
    have htop : (0x8000000000000000 : UInt64).toNat = 2 ^ 63 := rfl
    simp only [signed, neg, if_true, UInt64.toNat_xor, hof, htop, xor_top h]

theorem exponentField_eq (x : Binary64) : x.exponentField = x.bits.toNat / 2 ^ 52 % 2048 := by
  simp [exponentField, Nat.shiftRight_eq_div_pow]

theorem isNegative_eq (x : Binary64) : x.isNegative = decide (2 ^ 63 ≤ x.bits.toNat) := by
  have hlt : x.bits.toNat < 2 ^ 64 := x.bits.toNat_lt
  have hshift : (x.bits >>> 63).toNat = x.bits.toNat / 2 ^ 63 := by
    simp [Nat.shiftRight_eq_div_pow]
  rw [isNegative, Bool.eq_iff_iff, beq_iff_eq, decide_eq_true_eq, ← UInt64.toNat_inj, hshift]
  show _ = 1 ↔ _
  omega

theorem signed_fields (negative : Bool) {e f : Nat} (he : e < 2048) (hf : f < 2 ^ 52) :
    let x := signed negative (e * 2 ^ 52 + f)
    x.isNegative = negative ∧ x.exponentField = e ∧ x.fractionField = f := by
  intro x
  have hbits : x.bits.toNat = e * 2 ^ 52 + f + if negative then 2 ^ 63 else 0 :=
    signed_bits negative (by omega)
  rw [isNegative_eq, exponentField_eq, fractionField, hbits]
  cases negative <;> simp <;> omega

end Binary64

namespace Binary32

theorem exponentField_eq (x : Binary32) : x.exponentField = x.bits.toNat / 2 ^ 23 % 256 := by
  simp [exponentField, Nat.shiftRight_eq_div_pow]

theorem isNegative_eq (x : Binary32) : x.isNegative = decide (2 ^ 31 ≤ x.bits.toNat) := by
  have hlt : x.bits.toNat < 2 ^ 32 := x.bits.toNat_lt
  have hshift : (x.bits >>> 31).toNat = x.bits.toNat / 2 ^ 31 := by
    simp [Nat.shiftRight_eq_div_pow]
  rw [isNegative, Bool.eq_iff_iff, beq_iff_eq, decide_eq_true_eq, ← UInt32.toNat_inj, hshift]
  show _ = 1 ↔ _
  omega

/-- The bits are the sign and those of the magnitude. -/
theorem bits_split (x : Binary32) :
    x.bits.toNat = x.exponentField * 2 ^ 23 + x.fractionField + if x.isNegative then 2 ^ 31 else 0 := by
  have hlt : x.bits.toNat < 2 ^ 32 := x.bits.toNat_lt
  rw [isNegative_eq, exponentField_eq, fractionField]
  simp only [Nat.pow_eq, decide_eq_true_eq]
  split <;> omega

/-- The magnitude of a finite number fills the format: only at the least exponent may the mantissa be
short. -/
theorem mantissa_fills {x : Binary32} (h : x.isFinite) :
    x.mantissa < 2 ^ 24 ∧ -149 ≤ x.exponent ∧ x.exponent ≤ 104 ∧ (x.mantissa < 2 ^ 23 → x.exponent = -149) ∧
      (x.exponent + 149).toNat * 2 ^ 23 + x.mantissa = x.exponentField * 2 ^ 23 + x.fractionField := by
  have hfraction : x.fractionField < 2 ^ 23 := Nat.mod_lt _ (by decide)
  have hfield : x.exponentField < 256 := Nat.mod_lt _ (by decide)
  have hfinite : x.exponentField ≠ 255 := by simpa [isFinite] using h
  simp only [mantissa, exponent, Nat.pow_eq, beq_iff_eq]
  split <;> omega

/-- A number with the sign and the magnitude of another has its bits. -/
theorem ofRatio_same {x : Binary32} {num den : Nat}
    (h : Format.single.roundRatio num den = x.exponentField * 2 ^ 23 + x.fractionField) :
    ofRatio x.isNegative num den = x := by
  have hsplit := x.bits_split
  have hfraction : x.fractionField < 2 ^ 23 := Nat.mod_lt _ (by decide)
  have hfield : x.exponentField < 256 := Nat.mod_lt _ (by decide)
  have hmagnitude : x.exponentField * 2 ^ 23 + x.fractionField < 2 ^ 31 := by omega
  have hof : (UInt32.ofNat (x.exponentField * 2 ^ 23 + x.fractionField)).toNat
      = x.exponentField * 2 ^ 23 + x.fractionField := UInt32.toNat_ofNat_of_lt' (by
    simp only [UInt32.size]
    omega)
  obtain ⟨bits⟩ := x
  rw [ofRatio, h, Binary32.mk.injEq, ← UInt32.toNat_inj, hsplit]
  have htop : (0x80000000 : UInt32).toNat = 2 ^ 31 := rfl
  cases isNegative ⟨bits⟩ with
  | false => simp only [Bool.false_eq_true, if_false, hof, Nat.add_zero]
  | true => simp only [if_true, UInt32.toNat_xor, hof, htop, xor_top hmagnitude]

/-- A mantissa that is filled up to its highest place is not rounded. -/
theorem double_roundRatio {m k e f : Nat} {q : Int} (hm : m ≠ 0) (hk : Nat.log2 m + k = 52)
    (hf : m * 2 ^ k = 2 ^ 52 + f) (hfits : f < 2 ^ 52) (he : (e : Int) = q - k + 1075)
    (hlow : 0 < e) (hhigh : e < 2047) :
    Format.double.roundRatio (m * Nat.pow 2 q.toNat) (Nat.pow 2 (-q).toNat) = e * 2 ^ 52 + f := by
  have hQ : max (Nat.log2 m + q - Format.double.fraction) Format.double.lowest = q - k := by
    simp only [Format.double]
    omega
  have hM : m * 2 ^ (q.toNat + (-(q - k)).toNat) = m * 2 ^ k * 2 ^ ((-q).toNat + (q - k).toNat) := by
    rw [mul_assoc, ← pow_add]
    congr 2
    omega
  have hplace : (q - k + 1074).toNat * 2 ^ 52 + m * 2 ^ k = e * 2 ^ 52 + f := by omega
  have hbelow : e * 2 ^ 52 + f ≤ 2047 * 2 ^ 52 := by omega
  rw [Format.roundRatio_exact .double hm hQ hM]
  simp only [Format.double, Nat.pow_eq, sub_neg_eq_add, hplace]
  exact Nat.min_eq_left hbelow

/-- Widening fills the mantissa by a power of two. -/
theorem toBinary64_exact {x : Binary32} (h : x.isFinite) (hm : x.mantissa ≠ 0) :
    ∃ k : Nat, Nat.log2 x.mantissa + k = 52 ∧ x.toBinary64.isFinite ∧
      x.toBinary64.isNegative = x.isNegative ∧ x.toBinary64.mantissa = x.mantissa * 2 ^ k ∧
      x.toBinary64.exponent = x.exponent - k := by
  obtain ⟨hlt, hlow, hhigh, -, -⟩ := mantissa_fills h
  have hlog : Nat.log2 x.mantissa < 24 := (Nat.log2_lt hm).mpr hlt
  obtain ⟨k, hk⟩ : ∃ k, Nat.log2 x.mantissa + k = 52 := ⟨52 - Nat.log2 x.mantissa, by omega⟩
  obtain ⟨f, hf⟩ : ∃ f, x.mantissa * 2 ^ k = 2 ^ 52 + f := by
    refine Nat.exists_eq_add_of_le ?_
    rw [← hk, pow_add]
    exact Nat.mul_le_mul_right _ (Nat.log2_self_le hm)
  have hfits : x.mantissa * 2 ^ k < 2 ^ 53 := by
    rw [show 53 = Nat.log2 x.mantissa + 1 + k by omega, pow_add]
    exact Nat.mul_lt_mul_of_pos_right Nat.lt_log2_self (by positivity)
  obtain ⟨e, he⟩ : ∃ e : Nat, (e : Int) = x.exponent - k + 1075 :=
    ⟨(x.exponent - k + 1075).toNat, by omega⟩
  have hround := double_roundRatio hm hk hf (by omega) he (by omega) (by omega)
  have hwide : x.toBinary64 = .signed x.isNegative (e * 2 ^ 52 + f) := by
    rw [toBinary64, if_pos h, Binary64.ofRatio, hround]
    rfl
  obtain ⟨hsign, hexp, hfrac⟩ := Binary64.signed_fields x.isNegative (e := e) (f := f) (by omega) (by omega)
  rw [← hwide] at hsign hexp hfrac
  have hnormal : (e == 0) = false := by
    rw [beq_eq_false_iff_ne]
    omega
  refine ⟨k, hk, ?_, hsign, ?_, ?_⟩
  · rw [Binary64.isFinite, hexp, bne_iff_ne]
    omega
  · simp only [Binary64.mantissa, hexp, hnormal, hfrac, Bool.false_eq_true, if_false, Nat.pow_eq]
    omega
  · simp only [Binary64.exponent, hexp, hnormal, Bool.false_eq_true, if_false]
    omega

theorem toBinary64_zero {x : Binary32} (h : x.isFinite) (hm : x.mantissa = 0) :
    x.toBinary64 = .signed x.isNegative (0 * 2 ^ 52 + 0) := by
  rw [toBinary64, if_pos h, hm, Binary64.ofRatio, Nat.zero_mul]
  rfl

theorem toBinary64_infinite {x : Binary32} (h : ¬ x.isFinite) :
    ∃ f < 2 ^ 52, x.toBinary64 = .signed x.isNegative (2047 * 2 ^ 52 + f) := by
  have hsigned : ∀ {magnitude : UInt64}, magnitude.toNat / 2 ^ 52 = 2047 →
      ∃ f < 2 ^ 52, (⟨if x.isNegative then magnitude ^^^ 0x8000000000000000 else magnitude⟩ : Binary64)
        = .signed x.isNegative (2047 * 2 ^ 52 + f) := by
    intro magnitude hdiv
    have hsplit : 2047 * 2 ^ 52 + magnitude.toNat % 2 ^ 52 = magnitude.toNat := by omega
    refine ⟨magnitude.toNat % 2 ^ 52, Nat.mod_lt _ (by decide), ?_⟩
    rw [hsplit, Binary64.signed, UInt64.ofNat_toNat, Binary64.neg]
    split <;> rfl
  rw [toBinary64, if_neg h]
  refine hsigned ?_
  split
  · have hfraction : x.fractionField < 2 ^ 23 := Nat.mod_lt _ (by decide)
    have hof : (UInt64.ofNat (x.fractionField * Nat.pow 2 29)).toNat = x.fractionField * 2 ^ 29 :=
      UInt64.toNat_ofNat_of_lt' (by
        simp only [UInt64.size, Nat.pow_eq]
        omega)
    have hhead : (0x7ff8000000000000 : UInt64).toNat / 2 ^ 52 = 2047 := by decide
    rw [UInt64.toNat_or, hof, Nat.or_div_two_pow, hhead, Nat.div_eq_of_lt (by omega), Nat.or_zero]
  · decide

theorem toBinary64_isFinite (x : Binary32) : x.toBinary64.isFinite = x.isFinite := by
  by_cases h : x.isFinite
  · rw [h]
    by_cases hm : x.mantissa = 0
    · have hfields := Binary64.signed_fields x.isNegative (e := 0) (f := 0) (by decide) (by decide)
      rw [toBinary64_zero h hm, Binary64.isFinite, hfields.2.1]
      rfl
    · obtain ⟨k, -, hfinite, -⟩ := toBinary64_exact h hm
      exact hfinite
  · obtain ⟨f, hf, hwide⟩ := toBinary64_infinite h
    have hfields := Binary64.signed_fields x.isNegative (e := 2047) (f := f) (by decide) hf
    rw [hwide, Binary64.isFinite, hfields.2.1, Bool.not_eq_true _ |>.mp h]
    rfl

/-- A finite number comes back from double precision with its bits. -/
theorem ofBinary64_toBinary64 {x : Binary32} (h : x.isFinite) : ofBinary64 x.toBinary64 = x := by
  obtain ⟨hlt, hlow, hhigh, hshort, hbits⟩ := mantissa_fills h
  have hfinite : x.toBinary64.isFinite := (toBinary64_isFinite x).trans h
  by_cases hm : x.mantissa = 0
  · have hwide := toBinary64_zero h hm
    obtain ⟨hsign, hexp, hfrac⟩ := Binary64.signed_fields x.isNegative (e := 0) (f := 0) (by decide) (by decide)
    rw [← hwide] at hsign hexp hfrac
    have hmantissa : x.toBinary64.mantissa = 0 := by
      simp only [Binary64.mantissa, hexp, hfrac]
      rfl
    rw [ofBinary64, if_pos hfinite, hsign, hmantissa, Nat.zero_mul]
    refine ofRatio_same ?_
    rw [← hbits, hm, hshort (by omega)]
    rfl
  · obtain ⟨k, hk, -, hsign, hmantissa, hexponent⟩ := toBinary64_exact h hm
    have hwide : x.toBinary64.mantissa ≠ 0 := by
      rw [hmantissa]
      positivity
    have hlog : Nat.log2 x.toBinary64.mantissa = 52 := by rw [hmantissa, log2_mul_two_pow hm, hk]
    have hshort : Nat.log2 x.mantissa < 23 → x.exponent = -149 := fun hlog =>
      hshort ((Nat.log2_lt hm).mp hlog)
    have hlog32 : Nat.log2 x.mantissa < 24 := (Nat.log2_lt hm).mpr hlt
    have hQ : max (Nat.log2 x.toBinary64.mantissa + x.toBinary64.exponent - Format.single.fraction)
        Format.single.lowest = x.exponent := by
      simp only [Format.single, hlog, hexponent]
      omega
    have hM : x.toBinary64.mantissa * 2 ^ (x.toBinary64.exponent.toNat + (-x.exponent).toNat)
        = x.mantissa * 2 ^ ((-x.toBinary64.exponent).toNat + x.exponent.toNat) := by
      rw [hmantissa, mul_assoc, ← pow_add]
      congr 2
      omega
    have hbelow : x.exponentField * 2 ^ 23 + x.fractionField ≤ 255 * 2 ^ 23 := by omega
    rw [ofBinary64, if_pos hfinite, hsign]
    refine ofRatio_same ?_
    rw [Format.roundRatio_exact .single hwide hQ hM]
    simp only [Format.single, Nat.pow_eq, sub_neg_eq_add, hbits]
    exact Nat.min_eq_left hbelow

end Binary32

end ScriptHost
