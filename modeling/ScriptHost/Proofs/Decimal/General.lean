import ScriptHost.Proofs.Decimal.Display
import ScriptHost.Proofs.Decimal.Rounded

/-!
# One text on the host and in a script

The host shows a number by its shortest digits and never with an exponent, a script by fourteen digits and
with an exponent for what is very large or very small.  The texts agree on infinity and on the numbers that
at most fourteen digits stand for, if they are zero or lie from `0.0001` up and below `10^14`; on no other
number do they agree.
-/

set_option autoImplicit false

namespace ScriptHost.Binary64
open Decimal

def Short (x : Binary64) : Prop :=
  -- some decimal of at most fourteen digits, zero or from `0.0001` up and below `10^14`, reads as
  -- the number
  ∃ d : Decimal, d.digits < 10 ^ 14 ∧ (d.value = 0 ∨ 10 ^ (-4 : ℤ) ≤ d.value ∧ d.value < 10 ^ 14) ∧
    x.Reads d.value

theorem cell_counted {x : Binary64} (hx : 0 < x.steps) : (cell64 x).Counted :=
  ⟨cell_unit x, cell_reach hx (by norm_num)⟩

/-- A number with all its bits has a narrow cell. -/
theorem cell_narrow {x : Binary64} (hx : x.exponentField ≠ 0) : (cell64 x).Narrow := by
  have hpos : 0 < x.steps := by
    unfold steps
    positivity
  have hmantissa : 2 ^ 52 ≤ x.mantissa := by
    have hfield : (x.exponentField == 0) = false := by simpa using hx
    rw [mantissa, hfield]
    exact Nat.le_add_left _ _
  set up := Nat.pow 2 (x.exponent - 2).toNat with hup
  have hvalue : (cell64 x).value = 4 * x.mantissa * up := rfl
  have hhigh : (cell64 x).high = (4 * x.mantissa + 2) * up := rfl
  have hlow : 4 * x.mantissa * up ≤ (cell64 x).low + 2 * up := by
    show _ ≤ (4 * x.mantissa - (if _ then 1 else 2)) * up + 2 * up
    rw [← Nat.add_mul]
    apply Nat.mul_le_mul_right
    split <;> omega
  have hcast : (4 * 2 ^ 52 * up : ℚ) ≤ 4 * x.mantissa * up := by
    exact_mod_cast Nat.mul_le_mul_right up (Nat.mul_le_mul_left 4 hmantissa)
  have hlowcast : (4 * x.mantissa * up : ℚ) ≤ (cell64 x).low + 2 * up := by exact_mod_cast hlow
  have hnonneg : (0 : ℚ) ≤ up := Nat.cast_nonneg up
  refine ⟨cell_counted hpos, ?_, ?_⟩
  · rw [hvalue]
    push_cast
    linarith
  · rw [hvalue, hhigh]
    push_cast
    linarith

/-- Nothing from `0.0001` up reads as a number without its highest bit. -/
theorem field_ne_zero {x : Binary64} {v : ℚ} (hv : 10 ^ (-4 : ℤ) ≤ v) (h : (cell64 x).Contains v)
    (hx : 0 < x.steps) : x.exponentField ≠ 0 := by
  intro hzero
  obtain ⟨n, hn⟩ := Nat.exists_eq_succ_of_ne_zero hx.ne'
  have hsmall : n + 1 ≤ 1009 * 2 ^ 52 := by
    have hlt := x.fraction_lt
    have hsteps : x.steps = x.fractionField := by rw [steps, hzero, Nat.zero_mul, Nat.zero_add]
    omega
  have hbound : v < 10 ^ (-4 : ℤ) := by
    calc v ≤ edge (n + 1) := (contains_edges hn h).2.1
      _ ≤ edge (1009 * 2 ^ 52) := edge_mono.monotone hsmall
      _ < 10 ^ (-4 : ℤ) := by norm_num [edge, mantissaAt, exponentAt]
  exact absurd hv (not_le.mpr hbound)

/-- A natural number is the value of the cell of the magnitude that it is. -/
theorem magnitude_cell {x : Binary64} {m : ℕ} (hm : x.magnitude? = some m) :
    ((cell64 x).value : ℚ) = m * (cell64 x).unit := by
  rw [cell_value, magnitude_value hm, mantissa_eq, exponent_eq]

theorem rounded_digits {x : Binary64} (hx : 0 < x.steps) : (Decimal.rounded x 14).digits ≠ 0 := by
  intro hzero
  have hpos := Cell.rounded_pos (cell_counted hx)
  rw [← rounded_cell hx, value_eq_zero.mpr hzero] at hpos
  exact lt_irrefl _ hpos

def Moderate (d : Decimal) : Prop := d.digits = 0 ∨ -4 ≤ d.magnitude ∧ d.magnitude < 14

theorem moderate_between {d : Decimal} (hd : d.digits ≠ 0) :
    Moderate d ↔ 10 ^ (-4 : ℤ) ≤ d.value ∧ d.value < 10 ^ 14 := by
  obtain ⟨hleast, hmost⟩ := value_between hd
  have htop : (10 : ℚ) ^ 14 = 10 ^ (14 : ℤ) := by norm_num
  rw [Moderate, or_iff_right hd, htop]
  constructor
  · rintro ⟨hlow, hhigh⟩
    exact ⟨(zpow_le_zpow_right₀ (by norm_num) hlow).trans hleast,
      hmost.trans_le (zpow_le_zpow_right₀ (by norm_num) hhigh)⟩
  · rintro ⟨hlow, hhigh⟩
    have hnext : -4 < d.magnitude + 1 := (zpow_lt_zpow_iff_right₀ (by norm_num)).mp (hlow.trans_lt hmost)
    exact ⟨by omega, (zpow_lt_zpow_iff_right₀ (by norm_num)).mp (hleast.trans_lt hhigh)⟩

/-- Not a NaN: infinity, or fourteen digits, with an exponent unless that is moderate. -/
theorem generalText_cases {x : Binary64} (hx : x.isNaN = false) :
    (x.isInfinite = true ∧ x.generalText = x.signedText "inf".toList) ∨
      x.isInfinite = false ∧
        (Moderate (Decimal.rounded x 14) ∧
            x.generalText = x.signedText ((Decimal.rounded x 14).positional ['.', '0']) ∨
          ¬ Moderate (Decimal.rounded x 14) ∧
            x.generalText = x.signedText ((Decimal.rounded x 14).scientific 2)) := by
  unfold generalText
  simp only [hx, Bool.false_eq_true, if_false]
  by_cases hinfinite : x.isInfinite = true
  · rw [if_pos hinfinite]
    exact .inl ⟨hinfinite, rfl⟩
  rw [if_neg hinfinite]
  refine .inr ⟨by simpa using hinfinite, ?_⟩
  have hmoderate : ((Decimal.rounded x 14).digits == 0 || (decide (-4 ≤ (Decimal.rounded x 14).magnitude) &&
      decide ((Decimal.rounded x 14).magnitude < 14))) = true ↔ Moderate (Decimal.rounded x 14) := by
    simp [Moderate]
  split
  · next h => exact .inl ⟨hmoderate.mp h, rfl⟩
  · next h => exact .inr ⟨hmoderate.not.mp h, rfl⟩

theorem generalText_moderate {x : Binary64} (hnan : x.isNaN = false) (hfinite : x.isInfinite = false)
    (h : Moderate (Decimal.rounded x 14)) :
    x.generalText = x.signedText ((Decimal.rounded x 14).positional ['.', '0']) := by
  rcases generalText_cases hnan with ⟨hinfinite, -⟩ | ⟨-, ⟨-, htext⟩ | ⟨hlarge, -⟩⟩
  · exact absurd hinfinite (by simp [hfinite])
  · exact htext
  · exact absurd h hlarge

theorem scientific_letter (d : Decimal) (width : ℕ) : 'e' ∈ d.scientific width := by
  simp [scientific]

theorem signedText_body {x : Binary64} {body body' : List Char} (h : x.signedText body = x.signedText body') :
    body = body' := by
  have hlists := congrArg String.toList h
  simp only [signedText, String.toList_ofList] at hlists
  split at hlists
  · exact List.tail_eq_of_cons_eq hlists
  · exact hlists

theorem zero_short {x : Binary64} (hx : x.steps = 0) : x.Short := by
  refine ⟨⟨0, 0⟩, by norm_num, .inl (value_eq_zero.mpr rfl), ?_⟩
  rw [Reads, if_pos hx]
  exact value_eq_zero.mpr rfl

theorem zero_texts {x : Binary64} (hx : x.steps = 0) (hnan : x.isNaN = false) (hfinite : x.isInfinite = false) :
    x.displayText = x.generalText := by
  have hmantissa := mantissa_zero.mpr hx
  have hrounded : Decimal.rounded x 14 = ⟨0, 0⟩ := by
    rw [Decimal.rounded, hmantissa]
    rfl
  have hgeneral : x.generalText = x.signedText ['0', '.', '0'] := by
    rw [generalText_moderate hnan hfinite (.inl (by rw [hrounded])), hrounded]
    rfl
  rcases displayText_cases hnan with ⟨hinfinite, -⟩ | ⟨-, ⟨m, hm, -, htext⟩ | ⟨hlarge, -⟩⟩
  · exact absurd hinfinite (by simp [hfinite])
  · have hvalue := magnitude_value hm
    rw [hmantissa, Nat.cast_zero, zero_mul, Nat.cast_eq_zero] at hvalue
    rw [hgeneral, htext, hvalue]
    rfl
  · exact absurd (steps_pos hlarge) (by simp [hx])

section
variable {x : Binary64} (hx : 0 < x.steps)
include hx

/-- The rounded value of a short number is in its cell. -/
theorem short_contains (h : x.Short) : (cell64 x).Narrow ∧ (cell64 x).Contains (Decimal.rounded x 14).value ∧
    Moderate (Decimal.rounded x 14) := by
  obtain ⟨d, hd, hrange, hreads⟩ := h
  rw [Reads, if_neg hx.ne'] at hreads
  have hbetween := hrange.resolve_left (contains_pos hx hreads).ne'
  have hc := cell_narrow (field_ne_zero hbetween.1 hreads hx)
  have hvalue : d.value = (Decimal.rounded x 14).value := by
    rw [rounded_cell hx]
    exact Cell.short_rounded hc hd hreads
  rw [moderate_between (rounded_digits hx), ← hvalue]
  exact ⟨hc, hreads, hbetween⟩

/-- A natural number whose fourteen digits need no exponent is below `10^14`. -/
theorem magnitude_small (h : Moderate (Decimal.rounded x 14)) {m : ℕ} (hm : x.magnitude? = some m) :
    m < 10 ^ 14 := by
  by_contra hlarge
  have hcast : (10 : ℚ) ^ 14 ≤ m := by exact_mod_cast not_lt.mp hlarge
  have hcell : (10 : ℚ) ^ 14 * (cell64 x).unit ≤ (cell64 x).value := by
    rw [magnitude_cell hm]
    exact mul_le_mul_of_nonneg_right hcast (Nat.cast_nonneg _)
  have hrounded := Cell.rounded_large (cell_counted hx) hcell
  rw [← rounded_cell hx] at hrounded
  exact absurd ((moderate_between (rounded_digits hx)).mp h).2 (not_lt.mpr hrounded)

/-- And such a number is its own rounded value. -/
theorem rounded_magnitude (hc : (cell64 x).Narrow) {m : ℕ} (hm : x.magnitude? = some m) (hsmall : m < 10 ^ 14) :
    (Decimal.rounded x 14).value = m := by
  have hself : (⟨m, 0⟩ : Decimal).value = m := by rw [value, zpow_zero, mul_one]
  have hcenter := center_contains hx
  rw [← magnitude_value hm, ← hself] at hcenter
  rw [rounded_cell hx, ← hself]
  exact (Cell.short_rounded hc hsmall hcenter).symm

end

section
variable {x : Binary64} (hx : 0 < x.steps) (hnan : x.isNaN = false) (hfinite : x.isInfinite = false)
include hx hnan hfinite

/-- What both texts show reads as the number and has no more than fourteen digits. -/
theorem short_of_texts (h : x.displayText = x.generalText) : x.Short := by
  have hdigits := rounded_digits hx
  rcases displayText_body hnan with ⟨hinfinite, -⟩ | ⟨body, hdisplay, hnumeral, hreads⟩
  · exact absurd hinfinite (by simp [hfinite])
  rcases generalText_cases hnan with ⟨hinfinite, hgeneral⟩ | ⟨-, ⟨hmoderate, hgeneral⟩ | ⟨-, hgeneral⟩⟩ <;>
    rw [hdisplay, hgeneral] at h
  · exact absurd hinfinite (by simp [hfinite])
  · obtain rfl := signedText_body h
    rw [reading_decimal hdigits] at hreads
    refine ⟨Decimal.rounded x 14, ?_, .inr ((moderate_between hdigits).mp hmoderate), hreads⟩
    rw [rounded_cell hx]
    exact Cell.rounded_short (cell_counted hx)
  · have hbody := signedText_body h
    have hletter : 'e' ∈ body := hbody ▸ scientific_letter _ _
    exact absurd (hnumeral _ hletter) (by decide)

/-- A short number is shown by its fourteen digits. -/
theorem texts_of_short (h : x.Short) : x.displayText = x.generalText := by
  obtain ⟨hc, hcontains, hmoderate⟩ := short_contains hx h
  have hdigits := rounded_digits hx
  rw [generalText_moderate hnan hfinite hmoderate]
  rcases displayText_cases hnan with ⟨hinfinite, -⟩ | ⟨-, ⟨m, hm, -, htext⟩ | ⟨hlarge, htext⟩⟩
  · exact absurd hinfinite (by simp [hfinite])
  · have hvalue := rounded_magnitude hx hc hm (magnitude_small hx hmoderate hm)
    have hscale : 0 ≤ (Decimal.rounded x 14).scale := by
      rw [rounded_cell hx] at hvalue ⊢
      exact (normal_normal _).scale_nonneg hvalue
    have hinteger : m = (Decimal.rounded x 14).digits * 10 ^ (Decimal.rounded x 14).scale.toNat := by
      exact_mod_cast hvalue.symm.trans (value_whole hscale)
    rw [htext, positional_whole hdigits hscale, ← hinteger]
  · have hshortest : Decimal.shortest x .up = Decimal.rounded x 14 := by
      rw [shortest_cell hx, rounded_cell hx]
      exact Cell.shortest_rounded hc (rounded_cell hx 14 ▸ hcontains) .up
    have hscale : (Decimal.rounded x 14).scale < 0 := by
      cases hm : x.magnitude? with
      | some m =>
        have hleast := hlarge m hm
        have hmost := magnitude_small hx hmoderate hm
        omega
      | none =>
        obtain ⟨hexponent, hfraction⟩ := magnitude_none hm
        by_contra hwhole
        rw [value_whole (not_lt.mp hwhole)] at hcontains
        exact hfraction _ (contains_whole hexponent hcontains)
    rw [htext, hshortest, positional_fraction hdigits hscale ['.', '0']]

end

/-- The host and a script show a number alike exactly when it is infinite or short. -/
theorem displayText_general {x : Binary64} (hnan : x.isNaN = false) :
    x.displayText = x.generalText ↔ x.isInfinite = true ∨ x.Short := by
  by_cases hinfinite : x.isInfinite = true
  · refine iff_of_true ?_ (.inl hinfinite)
    rcases displayText_cases hnan with ⟨-, hdisplay⟩ | ⟨hfinite, -⟩
    · rcases generalText_cases hnan with ⟨-, hgeneral⟩ | ⟨hfinite, -⟩
      · rw [hdisplay, hgeneral]
      · exact absurd hinfinite (by simp [hfinite])
    · rw [isFinite, bne_iff_ne] at hfinite
      rw [isInfinite, Bool.and_eq_true, beq_iff_eq] at hinfinite
      exact absurd hinfinite.1 hfinite
  have hfinite : x.isInfinite = false := by simpa using hinfinite
  rw [or_iff_right hinfinite]
  rcases Nat.eq_zero_or_pos x.steps with hzero | hpos
  · exact iff_of_true (zero_texts hzero hnan hfinite) (zero_short hzero)
  · exact ⟨short_of_texts hpos hnan hfinite, texts_of_short hpos hnan hfinite⟩

-- one digit, but too large for a script to do without an exponent
example : (⟨0x430C6BF526340000⟩ : Binary64).displayText = "1000000000000000.0" ∧
    (⟨0x430C6BF526340000⟩ : Binary64).generalText = "1e+15" := by
  decide +kernel

def tenth : Binary64 := ⟨0x3FB999999999999A⟩

theorem tenth_short : tenth.Short := by
  have hholds : ((cell64 tenth).scaled (-1)).holds 1 = true := by decide +kernel
  have hcontains : (cell64 tenth).Contains (⟨1, -1⟩ : Decimal).value := (Cell.holds_scaled _ _ _).mp hholds
  have hpos : tenth.steps ≠ 0 := by decide +kernel
  refine ⟨⟨1, -1⟩, by norm_num, .inr ?_, ?_⟩
  · norm_num [value]
  · rwa [Reads, if_neg hpos]

end ScriptHost.Binary64
