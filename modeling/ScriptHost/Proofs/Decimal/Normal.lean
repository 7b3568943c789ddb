import ScriptHost.Proofs.Decimal.Reading

/-!
# Normal decimals

A normal decimal has no trailing zero among its digits, so no two of them have one value, and it is an
integer exactly when its scale is not negative.  Then it is laid out as that integer, with whatever
follows an integer, and otherwise on both sides of a point, with nothing after it.
-/

set_option autoImplicit false

namespace ScriptHost.Decimal

def Normal (d : Decimal) : Prop := d.digits % 10 ≠ 0 ∨ d = ⟨0, 0⟩

theorem lt_pow_digitCount (n : ℕ) : n < 10 ^ digitCount n :=
  (Nat.length_toDigits_le_iff (by norm_num) Nat.length_toDigits_pos).mp le_rfl

theorem strip_digits {fuel : ℕ} {d : Decimal} (hd : d.digits ≠ 0) (hfuel : d.digits < 10 ^ fuel) :
    (strip fuel d).digits % 10 ≠ 0 := by
  induction fuel generalizing d with
  | zero => omega
  | succ fuel ih =>
    simp only [strip]
    split
    · next h =>
      simp only [Bool.and_eq_true, bne_iff_ne, beq_iff_eq] at h
      apply ih
      · show d.digits / 10 ≠ 0
        omega
      · show d.digits / 10 < 10 ^ fuel
        omega
    · next h =>
      intro hzero
      exact h (by simp [hd, hzero])

theorem strip_le (fuel : ℕ) (d : Decimal) : (strip fuel d).digits ≤ d.digits := by
  induction fuel generalizing d with
  | zero => exact le_rfl
  | succ fuel ih =>
    simp only [strip]
    split
    · exact (ih _).trans (Nat.div_le_self _ _)
    · exact le_rfl

theorem normal_normal (d : Decimal) : d.normal.Normal := by
  unfold normal
  split
  · exact .inr rfl
  · next h => exact .inl (strip_digits (by simpa using h) (lt_pow_digitCount _))

theorem normal_le (d : Decimal) : d.normal.digits ≤ d.digits := by
  unfold normal
  split
  · exact Nat.zero_le _
  · exact strip_le _ d

/-- Rounding up to one more digit leaves a trailing zero. -/
theorem normal_lt {d : Decimal} {k : ℕ} (h : d.digits ≤ 10 ^ (k + 1)) : d.normal.digits < 10 ^ (k + 1) := by
  rcases normal_normal d with hlast | hzero
  · refine lt_of_le_of_ne ((normal_le d).trans h) fun heq => hlast ?_
    rw [heq, Nat.pow_succ, Nat.mul_mod_left]
  · rw [hzero]
    positivity

/-- A decimal lies on every grid that is not coarser than its own. -/
theorem value_grid {d : Decimal} {k : ℤ} (h : k ≤ d.scale) :
    d.value = (d.digits * 10 ^ (d.scale - k).toNat : ℕ) * 10 ^ k := by
  have hscale : d.scale = ((d.scale - k).toNat : ℤ) + k := by omega
  rw [value, Nat.cast_mul, Nat.cast_pow, Nat.cast_ofNat, mul_assoc, ← zpow_natCast,
    ← zpow_add₀ (by norm_num), ← hscale]

theorem grid_inj {m n : ℕ} {k : ℤ} (h : (m : ℚ) * 10 ^ k = n * 10 ^ k) : m = n := by
  exact_mod_cast mul_right_cancel₀ (by positivity) h

theorem value_eq_zero {d : Decimal} : d.value = 0 ↔ d.digits = 0 := by
  have hpos : (10 : ℚ) ^ d.scale ≠ 0 := by positivity
  rw [value, mul_eq_zero_iff_right hpos, Nat.cast_eq_zero]

/-- On the grid of a larger scale a normal decimal has no point but zero. -/
theorem Normal.coarse {d : Decimal} (hd : d.Normal) {n : ℕ} {k : ℤ} (hvalue : d.value = n * 10 ^ k)
    (hk : d.scale < k) : d = ⟨0, 0⟩ := by
  refine hd.resolve_left fun hlast => hlast ?_
  have hgrid : (n * 10 ^ k : ℚ) = (n * 10 ^ (k - d.scale).toNat : ℕ) * 10 ^ d.scale :=
    value_grid (d := ⟨n, k⟩) hk.le
  have hdigits : d.digits = n * 10 ^ (k - d.scale).toNat := grid_inj (hvalue.trans hgrid)
  have hpow : (k - d.scale).toNat = (k - d.scale).toNat - 1 + 1 := by omega
  rw [hdigits, hpow, Nat.pow_succ, ← mul_assoc, Nat.mul_mod_left]

/-- Two normal decimals with one value are one. -/
theorem Normal.unique {d e : Decimal} (hd : d.Normal) (he : e.Normal) (h : d.value = e.value) : d = e := by
  rcases lt_trichotomy d.scale e.scale with hlt | heq | hlt
  · obtain rfl := hd.coarse h hlt
    have hzero : e.digits = 0 := value_eq_zero.mp (h.symm.trans (value_eq_zero.mpr rfl))
    exact (he.resolve_left (by simp [hzero])).symm
  · have hdigits : d.digits = e.digits := grid_inj (h.trans (by rw [value, heq]))
    obtain ⟨n, k⟩ := d
    obtain ⟨m, l⟩ := e
    exact congrArg₂ mk hdigits heq
  · obtain rfl := he.coarse h.symm hlt
    have hzero : d.digits = 0 := value_eq_zero.mp (h.trans (value_eq_zero.mpr rfl))
    exact hd.resolve_left (by simp [hzero])

theorem Normal.scale_nonneg {d : Decimal} (hd : d.Normal) {n : ℕ} (h : d.value = n) : 0 ≤ d.scale := by
  by_contra hneg
  have hzero := hd.coarse (k := 0) (by rw [h, zpow_zero, mul_one]) (not_le.mp hneg)
  rw [hzero] at hneg
  exact hneg le_rfl

/-- The value of a decimal that is an integer. -/
theorem value_whole {d : Decimal} (h : 0 ≤ d.scale) : d.value = (d.digits * 10 ^ d.scale.toNat : ℕ) := by
  rw [value_grid h, sub_zero, zpow_zero, mul_one]

/-- The exponent of the scientific form bounds the value on both sides. -/
theorem value_between {d : Decimal} (hd : d.digits ≠ 0) :
    (10 : ℚ) ^ d.magnitude ≤ d.value ∧ d.value < 10 ^ (d.magnitude + 1) := by
  have hcount : 0 < digitCount d.digits := Nat.length_toDigits_pos
  have hlow : d.magnitude = (digitCount d.digits - 1 : ℕ) + d.scale := by
    rw [magnitude]
    omega
  have hhigh : d.magnitude + 1 = (digitCount d.digits : ℕ) + d.scale := by
    rw [magnitude]
    omega
  have hpos : (0 : ℚ) < 10 ^ d.scale := by positivity
  rw [hhigh, hlow, zpow_add₀ (by norm_num), zpow_add₀ (by norm_num), zpow_natCast, zpow_natCast, value]
  constructor
  · apply mul_le_mul_of_nonneg_right _ hpos.le
    exact_mod_cast Cell.pow_digitCount hd
  · apply mul_lt_mul_of_pos_right _ hpos
    exact_mod_cast lt_pow_digitCount d.digits

theorem toDigits_shifted {n : ℕ} (hn : n ≠ 0) (k : ℕ) :
    Nat.toDigits 10 (n * 10 ^ k) = Nat.toDigits 10 n ++ zeros k := by
  induction k with
  | zero => simp [zeros]
  | succ k ih =>
    have hpos : 0 < n * 10 ^ k := by positivity
    have hnext := Nat.toDigits_append_toDigits (b := 10) (d := 0) (by norm_num) hpos (by norm_num)
    have hproduct : n * 10 ^ (k + 1) = 10 * (n * 10 ^ k) + 0 := by ring
    rw [hproduct, ← hnext, ih, List.append_assoc]
    congr 1
    exact List.replicate_succ'.symm

/-- An integer is laid out by its digits, and the tail follows. -/
theorem positional_whole {d : Decimal} (hd : d.digits ≠ 0) (hscale : 0 ≤ d.scale) (tail : List Char) :
    d.positional tail = Nat.toDigits 10 (d.digits * 10 ^ d.scale.toNat) ++ tail := by
  have hbeq : (d.digits == 0) = false := by simpa using hd
  have hcount : 0 < d.digitText.length := Nat.length_toDigits_pos
  have hzeros : ((d.digitText.length : ℤ) + d.scale).toNat - d.digitText.length = d.scale.toNat := by omega
  unfold positional
  simp only [hbeq, Bool.false_eq_true, if_false]
  rw [if_neg (by omega), if_pos (by omega), hzeros, toDigits_shifted hd]
  rfl

/-- No tail follows a fractional part. -/
theorem positional_fraction {d : Decimal} (hd : d.digits ≠ 0) (hscale : d.scale < 0) (tail : List Char) :
    d.positional tail = d.positional [] := by
  have hbeq : (d.digits == 0) = false := by simpa using hd
  have hcount : 0 < d.digitText.length := Nat.length_toDigits_pos
  unfold positional
  simp only [hbeq, Bool.false_eq_true, if_false]
  by_cases hsmall : (d.digitText.length : ℤ) + d.scale ≤ 0
  · rw [if_pos hsmall, if_pos hsmall]
  · have hinside : ¬ d.digitText.length ≤ ((d.digitText.length : ℤ) + d.scale).toNat := by omega
    rw [if_neg hsmall, if_neg hsmall, if_neg hinside, if_neg hinside]

/-- A number laid out with a decimal at least reads back. -/
theorem reading_decimal {d : Decimal} (hd : d.digits ≠ 0) : reading (d.positional ['.', '0']) = d.value := by
  rcases lt_or_ge d.scale 0 with hscale | hscale
  · rw [positional_fraction hd hscale, reading_positional hd]
  · rw [positional_whole hd hscale, reading_one_decimal, value_whole hscale]

end ScriptHost.Decimal
