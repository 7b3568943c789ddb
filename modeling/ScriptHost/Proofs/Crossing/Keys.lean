import Mathlib.Data.List.Nodup
import ScriptHost.Crossing
import ScriptHost.Proofs.Decimal.Digits

/-!
# Keys of maps and of tables

A map key that is the decimal text of an integer of 64 bits becomes an integer key of a table, any
other stays text.  The two readings are inverse, so no two map keys meet in one table key and the host
gets every key back as it was.
-/

set_option autoImplicit false

namespace ScriptHost.Crossing
open Lua

theorem natOfDigits_toDigits (n : Nat) : Json.natOfDigits 10 (Nat.toDigits 10 n) = n := by
  rw [Decimal.natOfDigits_eq fun c h => Nat.isDigit_of_mem_toDigits (by decide) (by decide) h]
  exact Nat.ofDigitChars_ten_toDigits

theorem toDigits_digits (n : Nat) : (Nat.toDigits 10 n).all Json.isDigit = true := by
  apply List.all_eq_true.mpr
  intro c hc
  have hd := Nat.isDigit_of_mem_toDigits (by decide) (by decide) hc
  simpa [Json.isDigit, Char.isDigit, Char.le_def] using hd

@[simp] theorem int64_toInt (i : Int64) : int64? i.toInt = some i := by
  rw [int64?, if_pos ⟨Int64.minValue_le_toInt i, Int64.toInt_le i⟩, Int64.ofInt_toInt]

theorem toInt_of_int64 {n : Int} {i : Int64} (h : int64? n = some i) : i.toInt = n := by
  unfold int64? at h
  split at h
  · next hn =>
    obtain rfl := Option.some.inj h
    have hu : Int64.maxValue.toInt = 2 ^ 63 - 1 := by decide
    exact Int64.toInt_ofInt_of_le (by simpa using hn.1) (by omega)
  · simp at h

def keyOfDigits (key : String) (negative : Bool) (digits : List Char) : Option Int64 :=
  if digits.isEmpty || !digits.all Json.isDigit then none
  else
    let n : Int := Json.natOfDigits 10 digits
    let i := if negative then -n else n
    if toString i = key then int64? i else none

theorem integerKey_negative (key : String) (digits : List Char) (h : key.toList = '-' :: digits) :
    integerKey? key = keyOfDigits key true digits := by
  simp only [integerKey?, h, keyOfDigits]

theorem integerKey_plain (key : String) (h : ∀ digits, key.toList ≠ '-' :: digits) :
    integerKey? key = keyOfDigits key false key.toList := by
  unfold integerKey?
  split
  next negative digits hm =>
  split at hm
  · next hd => exact absurd hd (h _)
  · cases hm
    rfl

theorem keyOfDigits_text {key : String} {negative : Bool} {digits : List Char} {i : Int64}
    (h : keyOfDigits key negative digits = some i) : key = toString i.toInt := by
  simp only [keyOfDigits] at h
  generalize (if negative = true then -(Json.natOfDigits 10 digits : Int)
    else Json.natOfDigits 10 digits) = n at h
  split at h
  · simp at h
  · split at h
    · next ht => rw [toInt_of_int64 h, ht]
    · simp at h

theorem integerKey_text {key : String} {i : Int64} (h : integerKey? key = some i) :
    key = toString i.toInt := by
  by_cases hs : ∃ digits, key.toList = '-' :: digits
  · obtain ⟨digits, hd⟩ := hs
    exact keyOfDigits_text (integerKey_negative key digits hd ▸ h)
  · exact keyOfDigits_text (integerKey_plain key (fun digits hd => hs ⟨digits, hd⟩) ▸ h)

theorem toDigits_unsigned (n : Nat) (digits : List Char) : Nat.toDigits 10 n ≠ '-' :: digits := by
  intro h
  have hd := Nat.isDigit_of_mem_toDigits (b := 10) (n := n) (c := '-') (by decide) (by decide)
    (by simp [h])
  simp at hd

theorem keyOfDigits_printed {i : Int64} {negative : Bool} {n : Nat}
    (h : (if negative then -(n : Int) else n) = i.toInt) :
    keyOfDigits (toString i.toInt) negative (Nat.toDigits 10 n) = some i := by
  have hdigits : ¬ ((Nat.toDigits 10 n).isEmpty || !(Nat.toDigits 10 n).all Json.isDigit) = true := by
    rw [toDigits_digits, List.isEmpty_eq_false_iff.mpr Nat.toDigits_ne_nil]
    decide
  simp only [keyOfDigits]
  rw [if_neg hdigits, natOfDigits_toDigits, h, if_pos rfl, int64_toInt]

@[simp] theorem integerKey_toString (i : Int64) : integerKey? (toString i.toInt) = some i := by
  have htext := Decimal.toString_signed i.toInt
  by_cases hneg : i.toInt < 0
  · rw [if_pos hneg] at htext
    rw [integerKey_negative _ _ htext]
    exact keyOfDigits_printed (by rw [if_pos rfl]; omega)
  · rw [if_neg hneg] at htext
    rw [integerKey_plain _ (fun digits => htext ▸ toDigits_unsigned _ digits), htext]
    exact keyOfDigits_printed (by rw [if_neg Bool.false_ne_true]; omega)

/-- A key is taken for an integer exactly when it is the text of that integer. -/
theorem integerKey_iff (key : String) (i : Int64) :
    integerKey? key = some i ↔ key = toString i.toInt :=
  ⟨integerKey_text, fun h => h ▸ integerKey_toString i⟩

theorem decode_iff (bytes : ByteArray) (s : String) : Utf8.decode bytes = .ok s ↔ bytes = s.toUTF8 := by
  simp only [Utf8.decode, String.fromUTF8?]
  by_cases hb : bytes.IsValidUTF8
  · simp only [dif_pos hb, Except.ok.injEq]
    constructor
    · rintro rfl
      rfl
    · rintro rfl
      rfl
  · simp only [dif_neg hb, reduceCtorEq, false_iff]
    rintro rfl
    exact hb s.isValidUTF8

theorem textOf_iff (bytes : ByteArray) (s : String) : textOf bytes = .ok s ↔ bytes = s.toUTF8 := by
  rw [← decode_iff, textOf]
  split <;> simp_all

@[simp] theorem textOf_text (s : String) : textOf s.toUTF8 = .ok s := (textOf_iff _ _).mpr rfl

/-- Text that is no text of an integer stays text as a table key, any other becomes an integer; either
way the host gets the same text back. -/
theorem mapKey_tableKey (key : String) : mapKey (tableKey key) = .ok key := by
  unfold tableKey
  split
  · next i hi => rw [mapKey, ← (integerKey_iff key i).mp hi]
  · exact textOf_text key

theorem tableKey_key (key : String) : (tableKey key).key? = some (tableKey key) := by
  unfold tableKey
  split <;> rfl

theorem tableKey_injective : Function.Injective tableKey := by
  intro a b h
  have ha := mapKey_tableKey a
  rw [h, mapKey_tableKey b] at ha
  exact (Except.ok.inj ha).symm

end ScriptHost.Crossing
