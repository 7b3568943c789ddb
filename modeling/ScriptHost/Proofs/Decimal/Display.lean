import Mathlib.Data.Nat.Cast.Field
import ScriptHost.Proofs.Binary
import ScriptHost.Proofs.Decimal.Reading
import ScriptHost.Proofs.Decimal.Spacing

/-!
# Display texts tell numbers apart

The display text of a finite number reads as a number of its cell, and no number lies in two cells: but
for NaNs, no two numbers have one display text.  Only whole numbers of `10^16` and more are shown without a
point, and one that is shown as an integer of 64 bits is an integer of 64 bits.
-/

set_option autoImplicit false

namespace ScriptHost

namespace Binary64
open Decimal

theorem eq_of_steps {x y : Binary64} (hsteps : x.steps = y.steps) (hsign : x.isNegative = y.isNegative) :
    x = y := by
  have hbits : ∀ z : Binary64, z.bits.toNat = z.steps + if z.isNegative then 2 ^ 63 else 0 := by
    intro z
    have hlt : z.bits.toNat < 2 ^ 64 := z.bits.toNat_lt
    rw [steps, isNegative_eq, exponentField_eq, fractionField, Nat.pow_eq]
    simp only [decide_eq_true_eq]
    split <;> omega
  obtain ⟨x⟩ := x
  obtain ⟨y⟩ := y
  have heq : x.toNat = y.toNat := by
    rw [hbits ⟨x⟩, hbits ⟨y⟩, hsteps, hsign]
  rw [UInt64.toNat_inj.mp heq]

def signedText (x : Binary64) (body : List Char) : String :=
  String.ofList (if x.isNegative then '-' :: body else body)

theorem signedText_inj {x y : Binary64} {body body' : List Char} (hbody : '-' ∉ body) (hbody' : '-' ∉ body')
    (h : x.signedText body = y.signedText body') : x.isNegative = y.isNegative ∧ body = body' := by
  have hlists := congrArg String.toList h
  simp only [signedText, String.toList_ofList] at hlists
  cases hx : x.isNegative <;> cases hy : y.isNegative <;>
    simp only [hx, hy, Bool.false_eq_true, if_true, if_false] at hlists
  · exact ⟨rfl, hlists⟩
  · exact absurd (hlists ▸ List.mem_cons_self) hbody
  · exact absurd (hlists ▸ List.mem_cons_self) hbody'
  · exact ⟨rfl, List.tail_eq_of_cons_eq hlists⟩

def magnitude? (x : Binary64) : Option ℕ :=
  if 0 ≤ x.exponent then some (x.mantissa * 2 ^ x.exponent.toNat)
  else if x.mantissa % 2 ^ (-x.exponent).toNat = 0 then some (x.mantissa / 2 ^ (-x.exponent).toNat)
  else none

theorem toInt_magnitude {x : Binary64} (hx : x.isFinite = true) :
    x.toInt? = x.magnitude?.map fun m : ℕ => if x.isNegative then -(m : ℤ) else m := by
  unfold toInt? magnitude?
  rw [hx]
  simp [Option.map_eq_bind, Option.bind_assoc]

theorem magnitude_value {x : Binary64} {m : ℕ} (h : x.magnitude? = some m) :
    (m : ℚ) = x.mantissa * 2 ^ x.exponent := by
  unfold magnitude? at h
  split at h
  · next hq =>
    obtain rfl := Option.some.inj h
    rw [Nat.cast_mul, Nat.cast_pow, Nat.cast_ofNat, ← zpow_natCast, Int.toNat_of_nonneg hq]
  · next hq =>
    split at h
    · next hmod =>
      obtain rfl := Option.some.inj h
      have hexponent : x.exponent = -((-x.exponent).toNat : ℤ) := by omega
      rw [Nat.cast_div (Nat.dvd_of_mod_eq_zero hmod) (by positivity), Nat.cast_pow, Nat.cast_ofNat,
        div_eq_mul_inv, ← zpow_natCast, ← zpow_neg, ← hexponent]
    · cases h

/-- Only a number with a fractional part has no such magnitude. -/
theorem magnitude_none {x : Binary64} (h : x.magnitude? = none) :
    x.exponent < 0 ∧ ∀ w, x.mantissa ≠ w * 2 ^ (-x.exponent).toNat := by
  unfold magnitude? at h
  split at h
  · cases h
  · next hq =>
    split at h
    · cases h
    · next hmod =>
      refine ⟨not_le.mp hq, fun w hw => hmod ?_⟩
      rw [hw]
      exact Nat.mul_mod_left _ _

/-- Not a NaN: infinity, a whole number below `10^16`, or a number that its shortest decimal stands
for. -/
theorem displayText_cases {x : Binary64} (hx : x.isNaN = false) :
    (x.isInfinite = true ∧ x.displayText = x.signedText "inf".toList) ∨
      x.isFinite = true ∧ ((∃ m, x.magnitude? = some m ∧ m < 10 ^ 16 ∧
          x.displayText = x.signedText (Nat.toDigits 10 m ++ ['.', '0'])) ∨
        (∀ m, x.magnitude? = some m → 10 ^ 16 ≤ m) ∧
          x.displayText = x.signedText ((Decimal.shortest x .up).positional [])) := by
  unfold displayText
  simp only [hx, Bool.false_eq_true, if_false]
  by_cases hinfinite : x.isInfinite = true
  · left
    rw [if_pos hinfinite]
    exact ⟨hinfinite, rfl⟩
  right
  have hfinite : x.isFinite = true := by
    rw [isNaN] at hx
    rw [isInfinite] at hinfinite
    rw [isFinite]
    grind
  refine ⟨hfinite, ?_⟩
  rw [if_neg hinfinite, toInt_magnitude hfinite]
  cases hm : x.magnitude? with
  | none => exact .inr ⟨by simp, rfl⟩
  | some m =>
    have habs : (if x.isNegative then -(m : ℤ) else m).natAbs = m := by
      split <;> simp
    simp only [Option.map_some, habs]
    by_cases hlt : m < 10 ^ 16
    · refine .inl ⟨m, rfl, hlt, ?_⟩
      rw [if_pos (by simpa using hlt)]
      rfl
    · refine .inr ⟨fun n hn => ?_, ?_⟩
      · obtain rfl := Option.some.inj hn
        exact not_lt.mp hlt
      · rw [if_neg (by simpa using hlt)]
        rfl

/-- A finite number that is not shown as a whole number is not zero. -/
theorem steps_pos {x : Binary64} (h : ∀ m, x.magnitude? = some m → 10 ^ 16 ≤ m) : 0 < x.steps := by
  rw [Nat.pos_iff_ne_zero]
  intro hzero
  have hmantissa := mantissa_zero.mpr hzero
  cases hm : x.magnitude? with
  | none => exact (magnitude_none hm).2 0 (by rw [hmantissa, Nat.zero_mul])
  | some m =>
    have hvalue := magnitude_value hm
    have hle := h m hm
    rw [hmantissa, Nat.cast_zero, zero_mul, Nat.cast_eq_zero] at hvalue
    omega

theorem shortest_digits {x : Binary64} (hx : 0 < x.steps) : (Decimal.shortest x .up).digits ≠ 0 := by
  intro hzero
  have hpos := contains_pos hx (shortest_contains hx .up)
  rw [value, hzero, Nat.cast_zero, zero_mul] at hpos
  exact lt_irrefl _ hpos

def Reads (x : Binary64) (v : ℚ) : Prop :=
  -- the reading of a magnitude: zero for zero, else a number of its cell
  if x.steps = 0 then v = 0 else (cell64 x).Contains v

theorem reads_value {x : Binary64} : x.Reads (x.mantissa * 2 ^ x.exponent) := by
  unfold Reads
  split
  · next hzero => rw [mantissa_zero.mpr hzero, Nat.cast_zero, zero_mul]
  · next hpos => exact center_contains (Nat.pos_of_ne_zero hpos)

theorem reads_shortest {x : Binary64} (hx : 0 < x.steps) : x.Reads (Decimal.shortest x .up).value := by
  rw [Reads, if_neg hx.ne']
  exact shortest_contains hx .up

theorem reads_unique {x y : Binary64} {v : ℚ} (hx : x.Reads v) (hy : y.Reads v) : x.steps = y.steps := by
  unfold Reads at hx hy
  by_cases hxzero : x.steps = 0 <;> by_cases hyzero : y.steps = 0
  · rw [hxzero, hyzero]
  · rw [if_pos hxzero] at hx
    rw [if_neg hyzero] at hy
    exact absurd hx (contains_pos (Nat.pos_of_ne_zero hyzero) hy).ne'
  · rw [if_neg hxzero] at hx
    rw [if_pos hyzero] at hy
    exact absurd hy (contains_pos (Nat.pos_of_ne_zero hxzero) hx).ne'
  · rw [if_neg hxzero] at hx
    rw [if_neg hyzero] at hy
    exact contains_unique hx hy (Nat.pos_of_ne_zero hxzero) (Nat.pos_of_ne_zero hyzero)

/-- What stands behind the sign: `inf`, or a numeral that reads as the magnitude. -/
theorem displayText_body {x : Binary64} (hx : x.isNaN = false) :
    (x.isInfinite = true ∧ x.displayText = x.signedText "inf".toList) ∨
      ∃ body, x.displayText = x.signedText body ∧ Numeral body ∧ x.Reads (reading body) := by
  rcases displayText_cases hx with hinfinite | ⟨-, ⟨m, hm, -, htext⟩ | ⟨hlarge, htext⟩⟩
  · exact .inl hinfinite
  · refine .inr ⟨_, htext, numeral_point (digits_toDigits m) (digits_zeros 1), ?_⟩
    rw [reading_one_decimal, magnitude_value hm]
    exact reads_value
  · have hpos := steps_pos hlarge
    have hdigits := shortest_digits hpos
    refine .inr ⟨_, htext, numeral_positional hdigits, ?_⟩
    rw [reading_positional hdigits]
    exact reads_shortest hpos

theorem steps_infinite {x : Binary64} (hx : x.isInfinite = true) : x.steps = 2047 * 2 ^ 52 := by
  rw [isInfinite, Bool.and_eq_true, beq_iff_eq, beq_iff_eq] at hx
  rw [steps, hx.1, hx.2, Nat.add_zero]

/-- Two numbers with one display text are one number. -/
theorem displayText_injective {x y : Binary64} (hx : x.isNaN = false) (hy : y.isNaN = false)
    (h : x.displayText = y.displayText) : x = y := by
  rcases displayText_body hx with ⟨hxinf, hxtext⟩ | ⟨body, hxtext, hxbody, hxreads⟩ <;>
    rcases displayText_body hy with ⟨hyinf, hytext⟩ | ⟨body', hytext, hybody, hyreads⟩ <;>
    rw [hxtext, hytext] at h
  · obtain ⟨hsign, -⟩ := signedText_inj (by decide) (by decide) h
    exact eq_of_steps ((steps_infinite hxinf).trans (steps_infinite hyinf).symm) hsign
  · obtain ⟨-, hbody⟩ := signedText_inj (by decide) (numeral_unsigned hybody) h
    exact absurd hbody.symm (numeral_finite hybody)
  · obtain ⟨-, hbody⟩ := signedText_inj (numeral_unsigned hxbody) (by decide) h
    exact absurd hbody (numeral_finite hxbody)
  · obtain ⟨hsign, rfl⟩ := signedText_inj (numeral_unsigned hxbody) (numeral_unsigned hybody) h
    exact eq_of_steps (reads_unique hxreads hyreads) hsign

def top : Binary64 := ⟨0x43E0000000000000⟩

theorem below_top {x : Binary64} (hx : 0 < x.steps) (h : x.steps < top.steps) :
    (x.mantissa * 2 ^ x.exponent : ℚ) < 2 ^ 63 := by
  obtain ⟨n, hn⟩ := Nat.exists_eq_succ_of_ne_zero hx.ne'
  have htop : top.steps = 0x43DFFFFFFFFFFFFF + 1 := by decide
  calc (x.mantissa * 2 ^ x.exponent : ℚ) ≤ edge (n + 1) := (contains_edges hn (center_contains hx)).2.1
    _ ≤ edge 0x43DFFFFFFFFFFFFF := edge_mono.monotone (by omega)
    _ < 2 ^ 63 := by norm_num [edge, mantissaAt, exponentAt]

theorem above_top {x : Binary64} (h : top.steps < x.steps) {v : ℚ} (hv : (cell64 x).Contains v) : 2 ^ 63 < v := by
  obtain ⟨n, hn⟩ := Nat.exists_eq_succ_of_ne_zero (Nat.zero_lt_of_lt h).ne'
  have htop : top.steps = 0x43E0000000000000 := by decide
  calc (2 ^ 63 : ℚ) < edge 0x43E0000000000000 := by norm_num [edge, mantissaAt, exponentAt]
    _ ≤ edge n := edge_mono.monotone (by omega)
    _ ≤ v := (contains_edges hn hv).1

theorem signedText_integer {x : Binary64} {body : List Char} {n : ℤ} (hbody : '-' ∉ body)
    (h : x.signedText body = toString n) : body = Nat.toDigits 10 n.natAbs := by
  have hlists := congrArg String.toList h
  have hdigits : '-' ∉ Nat.toDigits 10 n.natAbs := digits_unsigned (digits_toDigits _)
  rw [signedText, String.toList_ofList, toString_signed] at hlists
  by_cases hx : x.isNegative = true <;> by_cases hn : n < 0 <;>
    simp only [hx, hn, Bool.false_eq_true, if_true, if_false] at hlists
  · exact List.tail_eq_of_cons_eq hlists
  · rw [← hlists] at hdigits
    exact absurd List.mem_cons_self hdigits
  · rw [hlists] at hbody
    exact absurd List.mem_cons_self hbody
  · exact hlists

theorem shortest_of_steps {x y : Binary64} (h : x.steps = y.steps) (tie : Tie) :
    Decimal.shortest x tie = Decimal.shortest y tie := by
  have hfield : x.exponentField = y.exponentField := by rw [← x.steps_fields.1, h, y.steps_fields.1]
  have hfraction : x.fractionField = y.fractionField := by rw [← x.steps_fields.2, h, y.steps_fields.2]
  have hmantissa : x.mantissa = y.mantissa := by rw [mantissa_eq, h, mantissa_eq]
  have hexponent : x.exponent = y.exponent := by rw [exponent_eq, h, exponent_eq]
  rw [Decimal.shortest, Decimal.shortest, cell64, cell64, hmantissa, hexponent, hfraction, hfield]

theorem shortest_top : (Decimal.shortest top .up).value = 9223372036854776000 := by
  have hdecimal : Decimal.shortest top .up = ⟨9223372036854776, 3⟩ := by decide +kernel
  rw [hdecimal, value]
  norm_num

/-- A magnitude from `2^63` on has no shortest decimal up to there: that of `2^63` is rounded up. -/
theorem shortest_range {x : Binary64} (hx : 0 < x.steps) {n : ℕ} (hn : n ≤ 2 ^ 63)
    (hvalue : (Decimal.shortest x .up).value = n) : x.steps < top.steps := by
  rcases lt_trichotomy x.steps top.steps with hbelow | htop | habove
  · exact hbelow
  · rw [shortest_of_steps htop, shortest_top] at hvalue
    have hcast : 9223372036854776000 = n := by exact_mod_cast hvalue
    omega
  · have hlarge := above_top habove (shortest_contains hx .up)
    rw [hvalue] at hlarge
    have hcast : 2 ^ 63 < n := by exact_mod_cast hlarge
    omega

/-- Only an integer of 64 bits is shown as one.  A number with a fractional part has no integer in its
cell, and a whole number out of range is shown as an integer out of range. -/
theorem displayText_integer {x : Binary64} (hx : x.isNaN = false) {n : ℤ} (hleast : -2 ^ 63 ≤ n)
    (hmost : n < 2 ^ 63) (h : x.displayText = toString n) :
    ∃ m, x.toInt? = some m ∧ -2 ^ 63 ≤ m ∧ m < 2 ^ 63 := by
  have hnumeral : Digits (Nat.toDigits 10 n.natAbs) := digits_toDigits _
  rcases displayText_cases hx with ⟨-, htext⟩ | ⟨hfinite, ⟨m, -, -, htext⟩ | ⟨hlarge, htext⟩⟩
  · have hbody := signedText_integer (by decide) (htext ▸ h)
    exact absurd hbody.symm (numeral_finite (numeral_digits hnumeral))
  · have hunsigned := numeral_unsigned (numeral_point (digits_toDigits m) (digits_zeros 1))
    have hpoint : '.' ∈ Nat.toDigits 10 n.natAbs := by
      rw [← signedText_integer hunsigned (htext ▸ h)]
      exact List.mem_append_right _ List.mem_cons_self
    exact absurd rfl (digit_ne_point (hnumeral _ hpoint))
  · have hpos := steps_pos hlarge
    have hdigits := shortest_digits hpos
    have hbody := signedText_integer (numeral_unsigned (numeral_positional hdigits)) (htext ▸ h)
    have hvalue : (Decimal.shortest x .up).value = n.natAbs := by
      rw [← reading_positional hdigits, hbody, reading_digits hnumeral, Nat.ofDigitChars_ten_toDigits]
    cases hm : x.magnitude? with
    | none =>
      obtain ⟨hexponent, hfraction⟩ := magnitude_none hm
      have hcell := shortest_contains hpos .up
      rw [hvalue] at hcell
      exact absurd (contains_whole hexponent hcell) (hfraction _)
    | some m =>
      have hbelow := below_top hpos (shortest_range hpos (by omega) hvalue)
      rw [← magnitude_value hm] at hbelow
      have hrange : m < 2 ^ 63 := by exact_mod_cast hbelow
      refine ⟨_, by rw [toInt_magnitude hfinite, hm, Option.map_some], ?_⟩
      split <;> omega

example : top.displayText = "9223372036854776000" := by decide +kernel

end Binary64

end ScriptHost
