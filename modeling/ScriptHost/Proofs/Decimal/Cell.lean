import Mathlib.Algebra.Order.Field.Power
import Mathlib.Tactic.Linarith
import Mathlib.Tactic.Positivity
import Mathlib.Tactic.Ring
import ScriptHost.Decimal.Shortest

/-!
# Decimals and cells as rational numbers

A decimal has a value, and a cell the numbers that lie in it.  The shortest decimal of a cell is one of
them: the search ends at a point of a grid that the cell holds, or on the finest grid at the point nearest
to its value, and a cell that is not too narrow holds that one too.
-/

set_option autoImplicit false

namespace ScriptHost.Decimal

def value (d : Decimal) : ℚ := d.digits * 10 ^ d.scale

/-- A power with a sign in its exponent is a ratio of two without. -/
theorem zpow_ratio {base : ℚ} (hbase : base ≠ 0) (k : ℤ) : base ^ k * base ^ (-k).toNat = base ^ k.toNat := by
  rw [← zpow_natCast, ← zpow_natCast, ← zpow_add₀ hbase]
  congr 1
  omega

theorem strip_value (fuel : Nat) (d : Decimal) : (strip fuel d).value = d.value := by
  induction fuel generalizing d with
  | zero => rfl
  | succ fuel ih =>
    simp only [strip]
    split
    · next h =>
      have hten : d.digits % 10 = 0 := by
        simp only [Bool.and_eq_true, beq_iff_eq] at h
        exact h.2
      have hdigits : (d.digits : ℚ) = (d.digits / 10 : ℕ) * 10 := by
        exact_mod_cast (Nat.div_mul_cancel (Nat.dvd_of_mod_eq_zero hten)).symm
      rw [ih, value, value, hdigits, zpow_add_one₀ (by norm_num)]
      ring
    · rfl

@[simp] theorem normal_value (d : Decimal) : d.normal.value = d.value := by
  unfold normal
  split
  · next h =>
    have hzero : d.digits = 0 := by simpa using h
    simp [value, hzero]
  · exact strip_value _ d

namespace Cell

def Contains (c : Cell) (v : ℚ) : Prop :=
  if c.closed then (c.low : ℚ) ≤ v * c.unit ∧ v * c.unit ≤ c.high
  else (c.low : ℚ) < v * c.unit ∧ v * c.unit < c.high

theorem contains_between {c : Cell} {v : ℚ} (h : c.Contains v) :
    (c.low : ℚ) ≤ v * c.unit ∧ v * c.unit ≤ c.high := by
  unfold Contains at h
  split at h
  · exact h
  · exact ⟨h.1.le, h.2.le⟩

theorem contains_inside {c : Cell} {v : ℚ} (hlow : (c.low : ℚ) < v * c.unit)
    (hhigh : v * c.unit < c.high) : c.Contains v := by
  unfold Contains
  split
  · exact ⟨hlow.le, hhigh.le⟩
  · exact ⟨hlow, hhigh⟩

theorem holds_iff (c : Cell) (d : ℕ) : c.holds d = true ↔
    if c.closed then c.low ≤ d * c.unit ∧ d * c.unit ≤ c.high
    else c.low < d * c.unit ∧ d * c.unit < c.high := by
  unfold holds
  by_cases hclosed : c.closed = true
  · simp only [hclosed, if_true, decide_eq_true_eq]
  · simp only [hclosed, Bool.false_eq_true, if_false, decide_eq_true_eq]

section
variable (c : Cell) (k : ℤ)

theorem scaled_bound (n : ℕ) : ((n * Nat.pow 10 (-k).toNat : ℕ) : ℚ) = n * 10 ^ (-k).toNat := by
  show ((n * 10 ^ (-k).toNat : ℕ) : ℚ) = _
  push_cast
  rfl

theorem scaled_unit : ((c.scaled k).unit : ℚ) = 10 ^ k * c.unit * 10 ^ (-k).toNat := by
  show ((c.unit * 10 ^ k.toNat : ℕ) : ℚ) = _
  push_cast
  rw [← zpow_ratio (by norm_num) k]
  ring

end

/-- The cell with its bounds divided by a power of ten holds an integer when the cell itself contains
that integer on the grid of the power. -/
theorem holds_scaled (c : Cell) (k : ℤ) (d : ℕ) :
    (c.scaled k).holds d = true ↔ c.Contains (d * 10 ^ k) := by
  have hpos : (0 : ℚ) < 10 ^ (-k).toNat := by positivity
  have hpoint : ((d * (c.scaled k).unit : ℕ) : ℚ) = d * 10 ^ k * c.unit * 10 ^ (-k).toNat := by
    rw [Nat.cast_mul, scaled_unit]
    ring
  have hlow : ((c.scaled k).low : ℚ) = c.low * 10 ^ (-k).toNat := scaled_bound k c.low
  have hhigh : ((c.scaled k).high : ℚ) = c.high * 10 ^ (-k).toNat := scaled_bound k c.high
  have hleast : (c.scaled k).low ≤ d * (c.scaled k).unit ↔ (c.low : ℚ) ≤ d * 10 ^ k * c.unit := by
    rw [← Nat.cast_le (α := ℚ), hpoint, hlow]
    exact mul_le_mul_iff_of_pos_right hpos
  have hmost : d * (c.scaled k).unit ≤ (c.scaled k).high ↔ (d * 10 ^ k * c.unit : ℚ) ≤ c.high := by
    rw [← Nat.cast_le (α := ℚ), hpoint, hhigh]
    exact mul_le_mul_iff_of_pos_right hpos
  have hover : (c.scaled k).low < d * (c.scaled k).unit ↔ (c.low : ℚ) < d * 10 ^ k * c.unit := by
    rw [← Nat.cast_lt (α := ℚ), hpoint, hlow]
    exact mul_lt_mul_iff_of_pos_right hpos
  have hunder : d * (c.scaled k).unit < (c.scaled k).high ↔ (d * 10 ^ k * c.unit : ℚ) < c.high := by
    rw [← Nat.cast_lt (α := ℚ), hpoint, hhigh]
    exact mul_lt_mul_iff_of_pos_right hpos
  rw [holds_iff, Contains, show (c.scaled k).closed = c.closed from rfl]
  by_cases hclosed : c.closed = true
  · rw [if_pos hclosed, if_pos hclosed]
    exact and_congr hleast hmost
  · rw [if_neg hclosed, if_neg hclosed]
    exact and_congr hover hunder

theorem pick_holds {c : Cell} {tie : Tie} {d : ℕ} (h : c.pick? tie = some d) : c.holds d = true := by
  unfold pick? at h
  dsimp only at h
  split at h
  · next hheld => exact Option.some.inj h ▸ hheld
  split at h
  · next hheld => exact Option.some.inj h ▸ hheld
  split at h
  · next hheld => exact Option.some.inj h ▸ hheld
  · cases h

/-- Whatever grid the search ends on, if the cell contains the point that is taken from the last one. -/
theorem search_contains (c : Cell) (tie : Tie) (e : ℤ) (more n : ℕ)
    (hlast : c.Contains
      (⟨(c.scaled (e + 1 - (n + more : ℕ))).nearest tie, e + 1 - (n + more : ℕ)⟩ : Decimal).value) :
    c.Contains (c.search tie e more n).value := by
  induction more generalizing n with
  | zero => exact hlast
  | succ more ih =>
    simp only [search]
    split
    · next d hd => exact (holds_scaled c _ d).mp (pick_holds hd)
    · apply ih
      rwa [Nat.add_right_comm, Nat.add_assoc]

theorem nearest_cases (c : Cell) (tie : Tie) :
    c.nearest tie = c.value / c.unit ∧ 2 * (c.value % c.unit) ≤ c.unit ∨
      c.nearest tie = c.value / c.unit + 1 ∧ c.unit ≤ 2 * (c.value % c.unit) := by
  unfold nearest
  by_cases hhalf : 2 * (c.value % c.unit) = c.unit
  · simp only [hhalf, beq_self_eq_true, if_true, Nat.le_refl, and_true]
    cases tie with
    | up => exact .inr rfl
    | toEven =>
      dsimp only
      split
      · exact .inr rfl
      · exact .inl rfl
  · simp only [beq_iff_eq, hhalf, if_false, decide_eq_true_eq]
    by_cases hup : c.unit < 2 * (c.value % c.unit)
    · exact .inr ⟨if_pos hup, hup.le⟩
    · exact .inl ⟨if_neg hup, Nat.le_of_not_lt hup⟩

/-- The nearest integer is at most half a step away. -/
theorem nearest_close (c : Cell) (tie : Tie) (hunit : 0 < c.unit) :
    2 * (c.nearest tie * c.unit) ≤ 2 * c.value + c.unit ∧
      2 * c.value ≤ 2 * (c.nearest tie * c.unit) + c.unit := by
  have hsplit := Nat.div_add_mod' c.value c.unit
  have hrest := Nat.mod_lt c.value hunit
  rcases nearest_cases c tie with ⟨heq, hhalf⟩ | ⟨heq, hhalf⟩
  · rw [heq]
    omega
  · have hnext : (c.value / c.unit + 1) * c.unit = c.value / c.unit * c.unit + c.unit := by ring
    rw [heq, hnext]
    omega

/-- Half a step of a grid at most lies between the value of a cell and the point nearest to it. -/
theorem nearest_scaled {c : Cell} (hunit : 0 < c.unit) (tie : Tie) (k : ℤ) :
    2 * ((c.scaled k).nearest tie * 10 ^ k * c.unit : ℚ) ≤ 2 * c.value + 10 ^ k * c.unit ∧
      (2 * c.value : ℚ) ≤ 2 * ((c.scaled k).nearest tie * 10 ^ k * c.unit) + 10 ^ k * c.unit := by
  set d := (c.scaled k).nearest tie
  have hscaled : 0 < (c.scaled k).unit := Nat.mul_pos hunit (Nat.pow_pos (by norm_num))
  have hpos : (0 : ℚ) < 10 ^ (-k).toNat := by positivity
  have hvalue : ((c.scaled k).value : ℚ) = c.value * 10 ^ (-k).toNat := scaled_bound k c.value
  obtain ⟨hright, hleft⟩ := nearest_close (c.scaled k) tie hscaled
  constructor
  · have hcast : (2 * (d * (c.scaled k).unit) : ℚ) ≤ 2 * (c.scaled k).value + (c.scaled k).unit := by
      exact_mod_cast hright
    rw [scaled_unit, hvalue] at hcast
    refine le_of_mul_le_mul_right ?_ hpos
    linarith
  · have hcast : (2 * (c.scaled k).value : ℚ) ≤ 2 * (d * (c.scaled k).unit) + (c.scaled k).unit := by
      exact_mod_cast hleft
    rw [scaled_unit, hvalue] at hcast
    refine le_of_mul_le_mul_right ?_ hpos
    linarith

structure Wide (c : Cell) : Prop where
  unit : 0 < c.unit
  below : (c.value : ℚ) < 2 * 10 ^ 17 * (c.value - c.low)
  above : (c.value : ℚ) < 2 * 10 ^ 17 * (c.high - c.value)

/-- On a grid that is fine enough, the point nearest to its value is in a cell. -/
theorem nearest_contains {c : Cell} (hc : c.Wide) (tie : Tie) {k : ℤ}
    (hk : (10 : ℚ) ^ k * 10 ^ 17 * c.unit ≤ c.value) :
    c.Contains ((c.scaled k).nearest tie * 10 ^ k) := by
  obtain ⟨hright, hleft⟩ := nearest_scaled hc.unit tie k
  have hbelow := hc.below
  have habove := hc.above
  apply contains_inside
  · linarith
  · linarith

theorem pow_digitCount {n : ℕ} (hn : n ≠ 0) : 10 ^ (digitCount n - 1) ≤ n := by
  by_contra hlt
  have hpos : 0 < digitCount n := Nat.length_toDigits_pos
  have hlength : digitCount n = 1 ∨ 0 < digitCount n - 1 := by omega
  rcases hlength with hone | hmore
  · exact hn (by simpa [hone] using hlt)
  · have hle := (Nat.length_toDigits_le_iff (by norm_num) hmore).mpr (Nat.lt_of_not_le hlt)
    unfold digitCount at hpos hle
    omega

/-- The digits of a ratio that was multiplied by a power of ten give its exponent. -/
theorem pow_exponent (value unit power : ℕ) (hunit : 0 < unit)
    (hlarge : unit ≤ value * Nat.pow 10 power) :
    (10 : ℚ) ^ ((digitCount (value * Nat.pow 10 power / unit) : ℤ) - (power + 1)) * unit ≤ value := by
  set n := value * Nat.pow 10 power / unit
  have hpos : n ≠ 0 := (Nat.div_pos hlarge hunit).ne'
  have hcount : (10 : ℚ) ^ (digitCount n - 1) * unit ≤ value * 10 ^ power := by
    have hmul : 10 ^ (digitCount n - 1) * unit ≤ value * 10 ^ power :=
      (Nat.mul_le_mul_right _ (pow_digitCount hpos)).trans (Nat.div_mul_le_self _ _)
    exact_mod_cast hmul
  have hdigits : 0 < digitCount n := Nat.length_toDigits_pos
  have hexponent : (digitCount n : ℤ) - (power + 1) = (digitCount n - 1 : ℕ) - (power : ℤ) := by
    omega
  rw [hexponent, zpow_sub₀ (by norm_num), zpow_natCast, zpow_natCast, div_mul_eq_mul_div]
  exact (div_le_iff₀ (by positivity)).mpr hcount

/-- The exponent of a cell is not too large. -/
theorem magnitude_le {c : Cell} (hunit : 0 < c.unit) (hlarge : c.unit ≤ c.value * Nat.pow 10 400) :
    (10 : ℚ) ^ c.magnitude * c.unit ≤ c.value := by
  have hexponent : ((400 : ℕ) : ℤ) + 1 = 401 := rfl
  have hpow := pow_exponent c.value c.unit 400 hunit hlarge
  rw [hexponent] at hpow
  exact hpow

/-- A cell that is not too narrow contains its shortest decimal. -/
theorem shortest_contains {c : Cell} (hc : c.Wide) (hlarge : c.unit ≤ c.value * Nat.pow 10 400) (tie : Tie) :
    c.Contains (c.shortest tie).value := by
  rw [shortest, normal_value]
  apply search_contains
  apply nearest_contains hc
  refine le_trans (le_of_eq ?_) (magnitude_le hc.unit hlarge)
  rw [← zpow_natCast, ← zpow_add₀ (by norm_num)]
  congr 2
  push_cast
  ring

end Cell

end ScriptHost.Decimal
