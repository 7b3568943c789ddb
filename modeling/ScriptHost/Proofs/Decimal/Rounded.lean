import ScriptHost.Proofs.Decimal.Normal

/-!
# Fourteen digits

In a cell that is narrow enough lies at most one decimal of fourteen digits, and it can only be the value
rounded to so many.  When that is in the cell, the search for the shortest decimal ends at it: what it meets
on coarser grids would be on the grid of fourteen digits too.
-/

set_option autoImplicit false

namespace ScriptHost.Decimal

namespace Cell

/-- The digits of a ratio that was multiplied by a power of ten are not too few. -/
theorem lt_exponent (value unit power : ℕ) (hunit : 0 < unit) :
    (value : ℚ) < 10 ^ ((digitCount (value * Nat.pow 10 power / unit) : ℤ) - power) * unit := by
  set n := value * Nat.pow 10 power / unit
  have hcount : (value * 10 ^ power : ℚ) < 10 ^ digitCount n * unit := by
    have hdiv : value * 10 ^ power < 10 ^ digitCount n * unit :=
      (Nat.div_lt_iff_lt_mul hunit).mp (lt_pow_digitCount n)
    exact_mod_cast hdiv
  rw [zpow_sub₀ (by norm_num), zpow_natCast, zpow_natCast, div_mul_eq_mul_div]
  exact (lt_div_iff₀ (by positivity)).mpr hcount

/-- The exponent of a cell is not too small. -/
theorem lt_magnitude {c : Cell} (hunit : 0 < c.unit) : (c.value : ℚ) < 10 ^ (c.magnitude + 1) * c.unit := by
  have hexponent : c.magnitude + 1 = (digitCount (c.value * Nat.pow 10 400 / c.unit) : ℤ) - (400 : ℕ) := by
    exact sub_add _ _ _
  rw [hexponent]
  exact lt_exponent c.value c.unit 400 hunit

structure Counted (c : Cell) : Prop where
  unit : 0 < c.unit
  reach : c.unit ≤ c.value * Nat.pow 10 400

def last (c : Cell) : ℤ := c.magnitude + 1 - (14 : ℕ)

def tenth (c : Cell) : ℚ := 10 ^ (c.last - 1) * c.unit

def point (c : Cell) (tie : Tie) : ℕ := (c.scaled c.last).nearest tie

theorem step_tenth (c : Cell) (v : ℚ) : v * 10 ^ c.last * c.unit = 10 * (v * c.tenth) := by
  rw [tenth, zpow_sub_one₀ (by norm_num)]
  ring

theorem rounded_value (c : Cell) : (c.rounded .toEven 14).value = c.point .toEven * 10 ^ c.last :=
  normal_value _

section
variable {c : Cell} (hc : c.Counted)
include hc

theorem tenth_pos : 0 < c.tenth := by
  have hunit : (0 : ℚ) < c.unit := by exact_mod_cast hc.unit
  unfold tenth
  positivity

theorem value_tenth : 10 ^ 14 * c.tenth ≤ c.value ∧ c.value < 10 ^ 15 * c.tenth := by
  have hlow : c.magnitude = c.last - 1 + (14 : ℕ) := by
    rw [last]
    ring
  have hhigh : c.magnitude + 1 = c.last - 1 + (15 : ℕ) := by
    rw [last]
    push_cast
    ring
  have hleast := magnitude_le hc.unit hc.reach
  have hmost := lt_magnitude hc.unit
  rw [hhigh, zpow_add₀ (by norm_num), zpow_natCast] at hmost
  rw [hlow, zpow_add₀ (by norm_num), zpow_natCast] at hleast
  unfold tenth
  constructor
  · linarith
  · linarith

theorem point_tenth (tie : Tie) : 10 * (c.point tie * c.tenth) ≤ c.value + 5 * c.tenth ∧
    c.value ≤ 10 * (c.point tie * c.tenth) + 5 * c.tenth := by
  obtain ⟨hright, hleft⟩ := nearest_scaled hc.unit tie c.last
  have hstep : 10 ^ c.last * c.unit = 10 * c.tenth := by simpa using c.step_tenth 1
  rw [← point, step_tenth, hstep] at hright hleft
  constructor
  · linarith
  · linarith

/-- The nearest point has fourteen digits, or is the first with fifteen. -/
theorem point_between (tie : Tie) : 10 ^ 13 ≤ c.point tie ∧ c.point tie ≤ 10 ^ 14 := by
  have hpos := tenth_pos hc
  obtain ⟨hright, hleft⟩ := point_tenth hc tie
  obtain ⟨hleast, hmost⟩ := value_tenth hc
  constructor
  · by_contra hless
    have hcast : (c.point tie : ℚ) + 1 ≤ 10 ^ 13 := by exact_mod_cast not_le.mp hless
    nlinarith
  · by_contra hmore
    have hcast : (10 : ℚ) ^ 14 + 1 ≤ c.point tie := by exact_mod_cast not_le.mp hmore
    nlinarith

theorem rounded_short : (c.rounded .toEven 14).digits < 10 ^ 14 := normal_lt (point_between hc .toEven).2

theorem rounded_pos : 0 < (c.rounded .toEven 14).value := by
  have hpoint : (10 : ℚ) ^ 13 ≤ c.point .toEven := by exact_mod_cast (point_between hc .toEven).1
  have hpositive : (0 : ℚ) < c.point .toEven := lt_of_lt_of_le (by norm_num) hpoint
  rw [rounded_value]
  positivity

/-- What needs more than fourteen digits before the point is not rounded below them. -/
theorem rounded_large (hlarge : 10 ^ 14 * c.unit ≤ (c.value : ℚ)) : 10 ^ 14 ≤ (c.rounded .toEven 14).value := by
  have hunit : (0 : ℚ) < c.unit := by exact_mod_cast hc.unit
  have hpower : (10 : ℚ) ^ (14 : ℤ) < 10 ^ (c.magnitude + 1) :=
    lt_of_mul_lt_mul_right (hlarge.trans_lt (lt_magnitude hc.unit)) hunit.le
  have hexponent : 14 < c.magnitude + 1 := (zpow_lt_zpow_iff_right₀ (by norm_num)).mp hpower
  have hlast : (10 : ℚ) ^ (1 : ℤ) ≤ 10 ^ c.last := by
    apply zpow_le_zpow_right₀ (by norm_num)
    rw [last]
    omega
  have hpoint : (10 : ℚ) ^ 13 ≤ c.point .toEven := by exact_mod_cast (point_between hc .toEven).1
  calc (10 : ℚ) ^ 14 = 10 ^ 13 * 10 ^ (1 : ℤ) := by norm_num
    _ ≤ (c.point .toEven : ℚ) * 10 ^ c.last := mul_le_mul hpoint hlast (by positivity) (Nat.cast_nonneg _)
    _ = (c.rounded .toEven 14).value := (rounded_value c).symm

end

structure Narrow (c : Cell) : Prop extends c.Counted where
  below : 10 ^ 15 * (c.value - c.low : ℚ) ≤ c.value
  above : 10 ^ 15 * (c.high - c.value : ℚ) ≤ c.value

section
variable {c : Cell} (hc : c.Narrow)
include hc

theorem contains_tenth {v : ℚ} (h : c.Contains v) :
    v * c.unit < c.value + c.tenth ∧ c.value < v * c.unit + c.tenth := by
  obtain ⟨hleast, hmost⟩ := contains_between h
  have hvalue := (value_tenth hc.toCounted).2
  have hbelow := hc.below
  have habove := hc.above
  constructor
  · linarith
  · linarith

/-- No point of the grid but the nearest is in the cell. -/
theorem point_unique {n : ℕ} (h : c.Contains (n * 10 ^ c.last)) (tie : Tie) : n = c.point tie := by
  have hpos := tenth_pos hc.toCounted
  obtain ⟨hright, hleft⟩ := point_tenth hc.toCounted tie
  obtain ⟨habove, hbelow⟩ := contains_tenth hc h
  rw [step_tenth] at habove hbelow
  apply le_antisymm
  · by_contra hmore
    have hcast : (c.point tie : ℚ) + 1 ≤ n := by exact_mod_cast not_le.mp hmore
    nlinarith
  · by_contra hless
    have hcast : (n : ℚ) + 1 ≤ c.point tie := by exact_mod_cast not_le.mp hless
    nlinarith

/-- What has at most fourteen digits and is in the cell lies on the grid. -/
theorem last_le {d : Decimal} (hd : d.digits < 10 ^ 14) (h : c.Contains d.value) : c.last ≤ d.scale := by
  by_contra hfine
  have hpos := tenth_pos hc.toCounted
  have hunit : (0 : ℚ) < c.unit := by exact_mod_cast hc.unit
  have hdigits : (d.digits : ℚ) + 1 ≤ 10 ^ 14 := by exact_mod_cast hd
  have hscale : (10 : ℚ) ^ d.scale ≤ 10 ^ (c.last - 1) := zpow_le_zpow_right₀ (by norm_num) (by omega)
  have hvalue : d.value * c.unit ≤ d.digits * c.tenth := by
    rw [Decimal.value, tenth, mul_assoc]
    gcongr
  have hbelow := (contains_tenth hc h).2
  have hleast := (value_tenth hc.toCounted).1
  nlinarith

/-- So it is the rounded value. -/
theorem short_rounded {d : Decimal} (hd : d.digits < 10 ^ 14) (h : c.Contains d.value) :
    d.value = (c.rounded .toEven 14).value := by
  have hgrid := value_grid (last_le hc hd h)
  rw [hgrid] at h
  rw [hgrid, rounded_value, point_unique hc h]

end

/-- A cell that holds the nearest point, whichever way a half goes, is not passed over. -/
theorem pick_found {c : Cell} {tie tie' : Tie} (h : c.holds (c.nearest tie') = true) : c.pick? tie ≠ none := by
  unfold pick?
  dsimp only
  rcases nearest_cases c tie' with ⟨heq, -⟩ | ⟨heq, -⟩ <;> rw [heq] at h
  · split
    · exact Option.some_ne_none _
    · exact Option.some_ne_none _
  · split
    · exact Option.some_ne_none _
    split
    · exact Option.some_ne_none _
    · exact Option.some_ne_none _

section
variable {c : Cell} (hc : c.Narrow)
include hc

/-- On the way to the grid of fourteen digits no point is met but the nearest of that grid. -/
theorem search_rounded (h : c.Contains (c.rounded .toEven 14).value) (tie : Tie) {more n : ℕ} (hn : n ≤ 14)
    (hmore : 14 < n + more) : (c.search tie c.magnitude more n).value = (c.rounded .toEven 14).value := by
  induction more generalizing n with
  | zero => omega
  | succ more ih =>
    have hgrid : c.last ≤ c.magnitude + 1 - n := by
      rw [last]
      omega
    simp only [search]
    split
    · next d hd =>
      have hcontains : c.Contains (⟨d, c.magnitude + 1 - n⟩ : Decimal).value :=
        (holds_scaled c _ d).mp (pick_holds hd)
      have hvalue : (⟨d, c.magnitude + 1 - n⟩ : Decimal).value = _ := value_grid hgrid
      rw [hvalue] at hcontains
      rw [hvalue, rounded_value, point_unique hc hcontains]
    · next hnone =>
      apply ih
      · refine Nat.lt_of_le_of_ne hn fun hlast => ?_
        subst hlast
        rw [rounded_value, ← holds_scaled] at h
        exact pick_found h hnone
      · omega

/-- The shortest decimal is the rounded one when that is in the cell. -/
theorem shortest_rounded (h : c.Contains (c.rounded .toEven 14).value) (tie : Tie) :
    c.shortest tie = c.rounded .toEven 14 := by
  apply (normal_normal _).unique (normal_normal _)
  rw [normal_value]
  exact search_rounded hc h tie (by norm_num) (by norm_num)

end

end Cell

end ScriptHost.Decimal
