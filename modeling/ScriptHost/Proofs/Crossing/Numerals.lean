import ScriptHost.Proofs.Crossing.Keys
import ScriptHost.Proofs.Decimal.Reading

/-!
# Numerals among the keys

The form of a decimal numeral is said here apart from the printer and from the reader of keys: digits
without a zero ahead of others, and a minus before them only where the number is negative.  Each integer of
64 bits has one numeral, the text of its key, and a text becomes an integer key exactly when it is the
numeral of an integer in that range.
-/

set_option autoImplicit false

namespace ScriptHost.Crossing
open Lua

structure Unpadded (digits : List Char) : Prop where
  nonempty : digits ≠ []
  all : Decimal.Digits digits
  lead : digits.head? = some '0' → digits = ['0']

inductive Numeral : List Char → Int → Prop
  | plain (digits : List Char) (h : Unpadded digits) : Numeral digits (Nat.ofDigitChars 10 digits 0)
  | minus (digits : List Char) (h : Unpadded digits) (hz : digits ≠ ['0']) :
      Numeral ('-' :: digits) (-(Nat.ofDigitChars 10 digits 0))

/-- Unpadded digits are the digits of their number. -/
theorem Unpadded.printed {cs : List Char} (h : Unpadded cs) :
    Nat.toDigits 10 (Nat.ofDigitChars 10 cs 0) = cs := by
  cases cs with
  | nil => exact absurd rfl h.nonempty
  | cons c rest =>
    by_cases hzero : c = '0'
    · rw [h.lead (by rw [hzero, List.head?_cons])]
      rfl
    · have hdigit : c.isDigit = true := h.all c List.mem_cons_self
      have hpos : 0 < c.toNat - '0'.toNat := by
        have hne : c.toNat ≠ '0'.toNat := fun heq => hzero (Char.toNat_inj.mp heq)
        have hlow := (Char.isDigit_iff_toNat.mp hdigit).1
        omega
      have hrest : Decimal.Digits rest := fun d hd => h.all d (List.mem_cons_of_mem c hd)
      rw [Nat.ofDigitChars_cons, Nat.mul_zero, Nat.zero_add, Decimal.toDigits_read hrest hpos,
        Decimal.toDigits_digit hdigit, List.singleton_append]

theorem unpadded_toDigits (n : Nat) : Unpadded (Nat.toDigits 10 n) where
  nonempty := Nat.toDigits_ne_nil
  all := Decimal.digits_toDigits n
  lead h := by
    rw [Decimal.lead_toDigits h]
    rfl

/-- The numeral of an integer is its text. -/
theorem numeral_iff (cs : List Char) (n : Int) : Numeral cs n ↔ cs = (toString n).toList := by
  rw [Decimal.toString_signed]
  constructor
  · intro h
    cases h with
    | plain _ h => rw [if_neg (by omega), Int.natAbs_natCast, h.printed]
    | minus digits h hz =>
      have hpos : Nat.ofDigitChars 10 digits 0 ≠ 0 := by
        intro hzero
        apply hz
        rw [← h.printed, hzero]
        rfl
      rw [if_pos (by omega), Int.natAbs_neg, Int.natAbs_natCast, h.printed]
  · rintro rfl
    have hread : Nat.ofDigitChars 10 (Nat.toDigits 10 n.natAbs) 0 = n.natAbs := Nat.ofDigitChars_ten_toDigits
    split
    · next hneg =>
      have hz : Nat.toDigits 10 n.natAbs ≠ ['0'] := fun hz => by
        have hzero := Decimal.lead_toDigits (congrArg List.head? hz)
        omega
      have hn := Numeral.minus _ (unpadded_toDigits n.natAbs) hz
      rwa [hread, show -(n.natAbs : Int) = n by omega] at hn
    · next hneg =>
      have hn := Numeral.plain _ (unpadded_toDigits n.natAbs)
      rwa [hread, show (n.natAbs : Int) = n by omega] at hn

theorem integerKey_numeral (s : String) (i : Int64) : integerKey? s = some i ↔ Numeral s.toList i.toInt := by
  rw [integerKey_iff, numeral_iff, String.toList_inj]

/-- However a text is read for an integer, as long as the texts of integers are read right, comparing the
integer's text with it leaves the integer keys. -/
theorem integerKey_compared {read : String → Option Int64} (hread : ∀ i : Int64, read (toString i.toInt) = some i)
    (s : String) : integerKey? s = (read s).filter fun i => toString i.toInt == s := by
  ext i
  rw [integerKey_iff, Option.filter_eq_some_iff, beq_iff_eq]
  constructor
  · rintro rfl
    exact ⟨hread i, rfl⟩
  · rintro ⟨-, h⟩
    exact h.symm

section
variable {cs : List Char} {n : Int}

theorem Numeral.characters (h : Numeral cs n) : ∀ c ∈ cs, c.isDigit = true ∨ c = '-' := by
  intro c hc
  cases h with
  | plain _ h => exact .inl (h.all c hc)
  | minus digits h =>
    rcases List.mem_cons.mp hc with hminus | hc
    · exact .inr hminus
    · exact .inl (h.all c hc)

theorem Numeral.lead (h : Numeral ('0' :: cs) n) : cs = [] := by
  cases h with
  | plain _ h => exact List.tail_eq_of_cons_eq (h.lead rfl)

theorem Numeral.minus_lead (h : Numeral ('-' :: '0' :: cs) n) : False := by
  cases h with
  | plain _ h => exact absurd (h.all '-' List.mem_cons_self) (by decide)
  | minus _ h hz => exact hz (h.lead rfl)

theorem Numeral.value (h : Numeral cs n) (hc : Decimal.Digits cs) : n = Nat.ofDigitChars 10 cs 0 := by
  cases h with
  | plain _ _ => rfl
  | minus digits _ => exact absurd (hc '-' List.mem_cons_self) (by decide)

theorem Numeral.minus_value (h : Numeral ('-' :: cs) n) : n = -(Nat.ofDigitChars 10 cs 0) := by
  cases h with
  | plain _ h => exact absurd (h.all '-' List.mem_cons_self) (by decide)
  | minus _ _ _ => rfl

theorem integerKey_none (h : ∀ i : Int64, ¬ Numeral cs i.toInt) : integerKey? (.ofList cs) = none := by
  apply Option.eq_none_iff_forall_ne_some.mpr
  intro i hi
  rw [integerKey_numeral, String.toList_ofList] at hi
  exact h i hi

end

/-- A key is taken for an integer exactly when it is the text that the integer has as a key, which is its
decimal numeral.  So each integer of 64 bits is the key of one text, texts with a plus, a zero ahead of
digits, a minus before zero or any other character and those of numbers beyond 64 bits stay texts, and no
reader that reads the texts of integers makes a difference. -/
theorem integer_keys_exact :
    (∀ (s : String) (i : Int64), integerKey? s = some i ↔ mapKey (.int i) = .ok s) ∧
    (∀ (s : String) (i : Int64), integerKey? s = some i ↔ Numeral s.toList i.toInt) ∧
    (∀ i : Int64, ∃ s, mapKey (.int i) = .ok s ∧ tableKey s = .int i) ∧
    (∀ (s t : String) (i : Int64), tableKey s = .int i → tableKey t = .int i → s = t) ∧
    (∀ cs, integerKey? (.ofList ('+' :: cs)) = none) ∧
    (∀ cs, cs ≠ [] → integerKey? (.ofList ('0' :: cs)) = none) ∧
    (∀ cs, integerKey? (.ofList ('-' :: '0' :: cs)) = none) ∧
    (∀ cs c, c ∈ cs → c.isDigit = false → c ≠ '-' → integerKey? (.ofList cs) = none) ∧
    (∀ digits, Decimal.Digits digits →
      (2 ^ 63 ≤ Nat.ofDigitChars 10 digits 0 → integerKey? (.ofList digits) = none) ∧
      (2 ^ 63 < Nat.ofDigitChars 10 digits 0 → integerKey? (.ofList ('-' :: digits)) = none)) ∧
    ∀ read : String → Option Int64, (∀ i : Int64, read (toString i.toInt) = some i) →
      ∀ s, integerKey? s = (read s).filter fun i => toString i.toInt == s := by
  have hstray : ∀ cs c, c ∈ cs → c.isDigit = false → c ≠ '-' → integerKey? (.ofList cs) = none := by
    intro cs c hc hdigit hminus
    exact integerKey_none fun i h => (h.characters c hc).elim (by simp [hdigit]) hminus
  refine ⟨fun s i => ?_, integerKey_numeral, fun i => ⟨_, rfl, ?_⟩, ?_, ?_, ?_, ?_, hstray, ?_,
    fun read hread => integerKey_compared hread⟩
  · rw [integerKey_iff, mapKey, Except.ok.injEq, eq_comm]
  · rw [tableKey, integerKey_toString]
  · exact fun s t i hs ht => tableKey_injective (hs.trans ht.symm)
  · exact fun cs => hstray _ '+' List.mem_cons_self (by decide) (by decide)
  · exact fun cs hcs => integerKey_none fun i h => hcs h.lead
  · exact fun cs => integerKey_none fun i h => h.minus_lead
  · intro digits hdigits
    constructor
    · intro hlarge
      refine integerKey_none fun i h => ?_
      have hvalue := h.value hdigits
      have hmost := i.toInt_lt
      omega
    · intro hlarge
      refine integerKey_none fun i h => ?_
      have hvalue := h.minus_value
      have hleast := i.le_toInt
      omega

-- the numerals at both ends of the range, and the first one beyond each
example : integerKey? "9223372036854775807" = some Int64.maxValue ∧ integerKey? "9223372036854775808" = none ∧
    integerKey? "-9223372036854775808" = some Int64.minValue ∧ integerKey? "-9223372036854775809" = none := by
  decide

end ScriptHost.Crossing
