import ScriptHost.Proofs.Decimal.Cell

/-!
# Cells side by side

The magnitudes of double precision stand in a row, and the cells between them share their ends: what is
the upper end of one is the lower end of the next.  Of two neighbours only one has an even mantissa, so no
number lies in two cells, and the shortest decimal of a number tells it from every other.
-/

set_option autoImplicit false

namespace ScriptHost

namespace Binary64

def steps (x : Binary64) : ℕ := x.exponentField * 2 ^ 52 + x.fractionField

theorem fraction_lt (x : Binary64) : x.fractionField < 2 ^ 52 := Nat.mod_lt _ (by decide)

theorem steps_fields (x : Binary64) :
    x.steps / 2 ^ 52 = x.exponentField ∧ x.steps % 2 ^ 52 = x.fractionField := by
  have hlt := x.fraction_lt
  unfold steps
  omega

end Binary64

namespace Decimal

def mantissaAt (n : ℕ) : ℕ := if n / 2 ^ 52 = 0 then n % 2 ^ 52 else n % 2 ^ 52 + 2 ^ 52

def exponentAt (n : ℕ) : ℤ := if n / 2 ^ 52 = 0 then -1074 else (n / 2 ^ 52 : ℕ) - 1075

theorem mantissa_eq (x : Binary64) : x.mantissa = mantissaAt x.steps := by
  rw [Binary64.mantissa, mantissaAt, x.steps_fields.1, x.steps_fields.2]
  simp only [beq_iff_eq]
  rfl

theorem exponent_eq (x : Binary64) : x.exponent = exponentAt x.steps := by
  rw [Binary64.exponent, exponentAt, x.steps_fields.1]
  simp only [beq_iff_eq]

theorem mantissaAt_lt (n : ℕ) : mantissaAt n < 2 ^ 53 := by
  unfold mantissaAt
  split <;> omega

theorem mantissaAt_pos {n : ℕ} (hn : 0 < n) : 0 < mantissaAt n := by
  unfold mantissaAt
  split <;> omega

theorem mantissaAt_parity (n : ℕ) : mantissaAt n % 2 = n % 2 := by
  unfold mantissaAt
  split <;> omega

theorem exponentAt_ge (n : ℕ) : -1074 ≤ exponentAt n := by
  unfold exponentAt
  split <;> omega

/-- From one magnitude to the next the mantissa goes up by one, or it has just filled up and starts again
with the next exponent. -/
theorem next_magnitude (n : ℕ) :
    mantissaAt (n + 1) = mantissaAt n + 1 ∧ exponentAt (n + 1) = exponentAt n ∧
        ¬ ((n + 1) % 2 ^ 52 = 0 ∧ 1 < (n + 1) / 2 ^ 52) ∨
      mantissaAt n = 2 ^ 53 - 1 ∧ mantissaAt (n + 1) = 2 ^ 52 ∧ exponentAt (n + 1) = exponentAt n + 1 ∧
        ((n + 1) % 2 ^ 52 = 0 ∧ 1 < (n + 1) / 2 ^ 52) := by
  unfold mantissaAt exponentAt
  by_cases hfull : (n + 1) % 2 ^ 52 = 0 ∧ 1 < (n + 1) / 2 ^ 52
  · refine .inr ⟨?_, ?_, ?_, hfull⟩ <;> split <;> (try split) <;> omega
  · refine .inl ⟨?_, ?_, hfull⟩ <;> split <;> split <;> omega

def edge (n : ℕ) : ℚ := (4 * mantissaAt n + 2) * 2 ^ (exponentAt n - 2)

theorem edge_pos (n : ℕ) : 0 < edge n := by
  unfold edge
  positivity

theorem edge_mono : StrictMono edge := by
  apply strictMono_nat_of_lt_succ
  intro n
  have hpow : (0 : ℚ) < 2 ^ (exponentAt n - 2) := by positivity
  unfold edge
  rcases next_magnitude n with ⟨hm, hq, -⟩ | ⟨hm, hm', hq, -⟩
  · rw [hm, hq]
    push_cast
    nlinarith
  · rw [hm, hm', hq, show exponentAt n + 1 - 2 = exponentAt n - 2 + 1 by ring,
      zpow_add_one₀ (by norm_num)]
    push_cast
    nlinarith

section
variable (x : Binary64)

theorem cell_unit : 0 < (cell64 x).unit := Nat.pow_pos (by norm_num)

/-- A quarter of a step in units of the cell. -/
theorem cell_quarter : ((Nat.pow 2 (x.exponent - 2).toNat : ℕ) : ℚ) =
    2 ^ (exponentAt x.steps - 2) * (cell64 x).unit := by
  have hunit : ((cell64 x).unit : ℚ) = 2 ^ (-(exponentAt x.steps - 2)).toNat := by
    rw [← exponent_eq, neg_sub]
    show ((2 ^ (2 - x.exponent).toNat : ℕ) : ℚ) = _
    push_cast
    rfl
  rw [hunit, zpow_ratio (by norm_num), ← exponent_eq]
  show ((2 ^ (x.exponent - 2).toNat : ℕ) : ℚ) = _
  push_cast
  rfl

theorem cell_value : ((cell64 x).value : ℚ) =
    mantissaAt x.steps * 2 ^ exponentAt x.steps * (cell64 x).unit := by
  have hfour : (2 : ℚ) ^ exponentAt x.steps = 4 * 2 ^ (exponentAt x.steps - 2) := by
    rw [zpow_sub₀ (by norm_num)]
    norm_num
    ring
  show ((4 * x.mantissa * Nat.pow 2 (x.exponent - 2).toNat : ℕ) : ℚ) = _
  rw [Nat.cast_mul, cell_quarter, mantissa_eq, hfour]
  push_cast
  ring

theorem cell_high : ((cell64 x).high : ℚ) = edge x.steps * (cell64 x).unit := by
  show (((4 * x.mantissa + 2) * Nat.pow 2 (x.exponent - 2).toNat : ℕ) : ℚ) = _
  rw [Nat.cast_mul, cell_quarter, mantissa_eq, edge]
  push_cast
  ring

theorem cell_closed : (cell64 x).closed = true ↔ x.steps % 2 = 0 := by
  rw [← mantissaAt_parity, ← mantissa_eq]
  exact beq_iff_eq

end

/-- The lower end is the upper end of the magnitude before. -/
theorem cell_low {x : Binary64} {n : ℕ} (hx : x.steps = n + 1) :
    ((cell64 x).low : ℚ) = edge n * (cell64 x).unit := by
  have hstep : (x.fractionField == 0 && decide (x.exponentField > 1)) = true ↔
      (n + 1) % 2 ^ 52 = 0 ∧ 1 < (n + 1) / 2 ^ 52 := by
    rw [← hx, x.steps_fields.1, x.steps_fields.2, Bool.and_eq_true, beq_iff_eq, decide_eq_true_eq]
  have hquarter := cell_quarter x
  have hlow : ((cell64 x).low : ℚ) =
      ((4 * x.mantissa - (if (x.fractionField == 0 && decide (x.exponentField > 1)) then 1 else 2) : ℕ) : ℚ) *
        (2 ^ (exponentAt x.steps - 2) * (cell64 x).unit) := by
    rw [← hquarter, ← Nat.cast_mul]
    rfl
  rw [hlow, mantissa_eq, hx, edge]
  rcases next_magnitude n with ⟨hm, hq, hsmooth⟩ | ⟨hm, hm', hq, hjump⟩
  · rw [if_neg (hstep.not.mpr hsmooth), hm, hq, show 4 * (mantissaAt n + 1) - 2 = 4 * mantissaAt n + 2 by omega]
    push_cast
    ring
  · rw [if_pos (hstep.mpr hjump), hm, hm', hq, show exponentAt n + 1 - 2 = exponentAt n - 2 + 1 by ring,
      zpow_add_one₀ (by norm_num)]
    norm_num
    ring

/-- What is in a cell lies between its ends, and at one of them only if the mantissa is even. -/
theorem contains_edges {x : Binary64} {n : ℕ} (hx : x.steps = n + 1) {v : ℚ}
    (h : (cell64 x).Contains v) :
    edge n ≤ v ∧ v ≤ edge (n + 1) ∧ (v = edge n ∨ v = edge (n + 1) → (n + 1) % 2 = 0) := by
  have hunit : (0 : ℚ) < (cell64 x).unit := by exact_mod_cast cell_unit x
  have hhigh := cell_high x
  rw [hx] at hhigh
  obtain ⟨hleast, hmost⟩ := Cell.contains_between h
  rw [cell_low hx] at hleast
  rw [hhigh] at hmost
  refine ⟨le_of_mul_le_mul_right hleast hunit, le_of_mul_le_mul_right hmost hunit, fun hend => ?_⟩
  by_contra hodd
  have hopen : ¬ (cell64 x).closed = true := by
    rw [cell_closed, hx]
    exact hodd
  rw [Cell.Contains, if_neg hopen, cell_low hx, hhigh] at h
  rcases hend with rfl | rfl
  · exact lt_irrefl _ h.1
  · exact lt_irrefl _ h.2

theorem contains_pos {x : Binary64} (hx : 0 < x.steps) {v : ℚ} (h : (cell64 x).Contains v) : 0 < v := by
  obtain ⟨n, hn⟩ := Nat.exists_eq_succ_of_ne_zero hx.ne'
  exact (edge_pos n).trans_le (contains_edges hn h).1

theorem contains_ordered {x y : Binary64} {v : ℚ} (hx : (cell64 x).Contains v)
    (hy : (cell64 y).Contains v) (hpos : 0 < x.steps) : ¬ x.steps < y.steps := by
  intro hlt
  obtain ⟨n, hn⟩ := Nat.exists_eq_succ_of_ne_zero hpos.ne'
  obtain ⟨m, hm⟩ := Nat.exists_eq_succ_of_ne_zero (Nat.zero_lt_of_lt hlt).ne'
  obtain ⟨-, hmost, hx'⟩ := contains_edges hn hx
  obtain ⟨hleast, -, hy'⟩ := contains_edges hm hy
  have hle : edge (n + 1) ≤ edge m := edge_mono.monotone (by omega)
  have hmeet : edge (n + 1) = edge m := le_antisymm hle (hleast.trans hmost)
  have hnext : n + 1 = m := edge_mono.injective hmeet
  have hxeven := hx' (.inr (le_antisymm hmost (hmeet ▸ hleast)))
  have hyeven := hy' (.inl (le_antisymm (hmost.trans hle) hleast))
  omega

/-- No number is in the cells of two magnitudes. -/
theorem contains_unique {x y : Binary64} {v : ℚ} (hx : (cell64 x).Contains v)
    (hy : (cell64 y).Contains v) (hxpos : 0 < x.steps) (hypos : 0 < y.steps) : x.steps = y.steps :=
  Nat.le_antisymm (Nat.not_lt.mp (contains_ordered hy hx hypos))
    (Nat.not_lt.mp (contains_ordered hx hy hxpos))

/-- The cell of a magnitude but zero is wide enough for eighteen digits. -/
theorem cell_wide {x : Binary64} (hx : 0 < x.steps) : (cell64 x).Wide := by
  have hpos := mantissaAt_pos hx
  have hlt := mantissaAt_lt x.steps
  rw [← mantissa_eq] at hpos hlt
  set up := Nat.pow 2 (x.exponent - 2).toNat with hup
  have hupward : (0 : ℚ) < up := by
    exact_mod_cast Nat.pow_pos (by norm_num)
  have hbound : (4 * x.mantissa * up : ℚ) < 2 * 10 ^ 17 * up := by
    have hmantissa : (x.mantissa : ℚ) < 2 ^ 53 := by exact_mod_cast hlt
    nlinarith
  have hvalue : ((cell64 x).value : ℚ) = 4 * x.mantissa * up := by
    show ((4 * x.mantissa * up : ℕ) : ℚ) = _
    push_cast
    rfl
  have hhigh : ((cell64 x).high : ℚ) = (4 * x.mantissa + 2) * up := by
    show (((4 * x.mantissa + 2) * up : ℕ) : ℚ) = _
    push_cast
    rfl
  have hlow : ((cell64 x).low : ℚ) ≤ (4 * x.mantissa - 1) * up := by
    have hnat : (cell64 x).low + up ≤ 4 * x.mantissa * up := by
      show (4 * x.mantissa - (if _ then 1 else 2)) * up + up ≤ _
      rw [← Nat.add_one_mul]
      apply Nat.mul_le_mul_right
      split <;> omega
    have hcast : ((cell64 x).low : ℚ) + up ≤ 4 * x.mantissa * up := by exact_mod_cast hnat
    linarith
  refine ⟨cell_unit x, ?_, ?_⟩
  · rw [hvalue]
    nlinarith
  · rw [hvalue, hhigh]
    nlinarith

/-- The digits of a cell can be counted after so many places. -/
theorem cell_reach {x : Binary64} (hx : 0 < x.steps) {power : ℕ} (hpower : 359 ≤ power) :
    (cell64 x).unit ≤ (cell64 x).value * Nat.pow 10 power := by
  have hvalue : 1 ≤ (cell64 x).value := by
    have hpos := mantissaAt_pos hx
    rw [← mantissa_eq] at hpos
    exact Nat.mul_pos (Nat.mul_pos (by norm_num) hpos) (Nat.pow_pos (by norm_num))
  have hexponent := exponentAt_ge x.steps
  rw [← exponent_eq] at hexponent
  calc (cell64 x).unit = 2 ^ (2 - x.exponent).toNat := rfl
    _ ≤ 2 ^ (3 * power) := Nat.pow_le_pow_right (by norm_num) (by omega)
    _ = (2 ^ 3) ^ power := Nat.pow_mul 2 3 power
    _ ≤ Nat.pow 10 power := Nat.pow_le_pow_left (by norm_num) power
    _ ≤ (cell64 x).value * Nat.pow 10 power := Nat.le_mul_of_pos_left _ hvalue

theorem mantissa_zero {x : Binary64} : x.mantissa = 0 ↔ x.steps = 0 := by
  constructor
  · intro h
    by_contra hpos
    have := mantissaAt_pos (Nat.pos_of_ne_zero hpos)
    rw [← mantissa_eq] at this
    omega
  · intro h
    rw [mantissa_eq, h]
    rfl

theorem shortest_cell {x : Binary64} (hx : 0 < x.steps) (tie : Tie) :
    shortest x tie = (cell64 x).shortest tie := by
  rw [shortest, if_neg]
  rw [beq_iff_eq, mantissa_zero]
  exact hx.ne'

theorem rounded_cell {x : Binary64} (hx : 0 < x.steps) (n : ℕ) : rounded x n = (cell64 x).rounded .toEven n := by
  rw [rounded, if_neg]
  rw [beq_iff_eq, mantissa_zero]
  exact hx.ne'

/-- So its shortest decimal is in it. -/
theorem shortest_contains {x : Binary64} (hx : 0 < x.steps) (tie : Tie) :
    (cell64 x).Contains (shortest x tie).value := by
  rw [shortest_cell hx]
  exact Cell.shortest_contains (cell_wide hx) (cell_reach hx (by norm_num)) tie

theorem center_contains {x : Binary64} (hx : 0 < x.steps) :
    (cell64 x).Contains (x.mantissa * 2 ^ x.exponent) := by
  have hwide := cell_wide hx
  have hbelow := hwide.below
  have habove := hwide.above
  have hnonneg : (0 : ℚ) ≤ (cell64 x).value := Nat.cast_nonneg _
  rw [mantissa_eq, exponent_eq]
  apply Cell.contains_inside
  · rw [← cell_value]
    linarith
  · rw [← cell_value]
    linarith

/-- A natural number in the cell of a magnitude with a fractional part of its own would be that
magnitude. -/
theorem contains_whole {x : Binary64} (hq : x.exponent < 0) {w : ℕ} (h : (cell64 x).Contains w) :
    x.mantissa = w * 2 ^ (-x.exponent).toNat := by
  obtain ⟨hleast, hmost⟩ := Cell.contains_between h
  have hup : Nat.pow 2 (x.exponent - 2).toNat = 1 := by
    rw [show (x.exponent - 2).toNat = 0 by omega, Nat.pow_eq, Nat.pow_zero]
  have hunit : (cell64 x).unit = 4 * 2 ^ (-x.exponent).toNat := by
    show 2 ^ (2 - x.exponent).toNat = _
    rw [show (2 - x.exponent).toNat = 2 + (-x.exponent).toNat by omega, Nat.pow_add]
  have hlow : 4 * x.mantissa ≤ (cell64 x).low + 2 := by
    show _ ≤ (4 * x.mantissa - (if _ then 1 else 2)) * Nat.pow 2 (x.exponent - 2).toNat + 2
    rw [hup]
    split <;> omega
  have hhigh : (cell64 x).high = 4 * x.mantissa + 2 := by
    show (4 * x.mantissa + 2) * Nat.pow 2 (x.exponent - 2).toNat = _
    rw [hup, Nat.mul_one]
  have hfour : w * (cell64 x).unit = 4 * (w * 2 ^ (-x.exponent).toNat) := by
    rw [hunit]
    ring
  have hleast' : (cell64 x).low ≤ w * (cell64 x).unit := by exact_mod_cast hleast
  have hmost' : w * (cell64 x).unit ≤ (cell64 x).high := by exact_mod_cast hmost
  omega

end Decimal

end ScriptHost
