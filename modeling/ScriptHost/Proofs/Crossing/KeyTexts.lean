import ScriptHost.Proofs.Crossing.Keys
import ScriptHost.Proofs.Decimal.Display

/-!
# Texts of table keys

Integers, binary numbers, booleans and strings all become texts when a table becomes a map.  Among keys
that are no strings the texts never meet: a whole number in range is an integer as a key, so no binary
number that is a key is shown as one, and no number is shown like a boolean.  Only a string can meet
another key, the one whose text it is.
-/

set_option autoImplicit false

namespace ScriptHost

theorem int64_range {n : ℤ} (hleast : -2 ^ 63 ≤ n) (hmost : n < 2 ^ 63) : int64? n ≠ none := by
  have hlow : Int64.minValue.toInt = -2 ^ 63 := by decide
  have hhigh : Int64.maxValue.toInt = 2 ^ 63 - 1 := by decide
  rw [int64?, if_pos (by omega)]
  exact Option.some_ne_none _

namespace Crossing
open Lua

/-- A binary number that is a key is a number, and no integer of 64 bits. -/
theorem float_key {x : Binary64} (h : (Datum.float x).key? = some (.float x)) :
    x.isNaN = false ∧ ∀ m, x.toInt? = some m → int64? m = none := by
  simp only [Datum.key?, Datum.wholeInt64?] at h
  split at h
  · cases h
  · next hnan =>
    refine ⟨by simpa using hnan, fun m hm => ?_⟩
    rw [hm] at h
    cases hn : int64? m with
    | none => rfl
    | some n => simp [hn] at h

/-- What a text on the host is the text of. -/
theorem mapKey_cases {k : Datum} {t : String} (h : mapKey k = .ok t) :
    k = .text t ∨ (∃ n, k = .int n ∧ t = toString n.toInt) ∨ (∃ x, k = .float x ∧ t = x.displayText) ∨
      ∃ b, k = .bool b ∧ t = if b then "true" else "false" := by
  cases k with
  | string s =>
    rw [mapKey, textOf_iff] at h
    exact .inl (congrArg Datum.string h)
  | int n => exact .inr (.inl ⟨n, rfl, (Except.ok.inj h).symm⟩)
  | float x => exact .inr (.inr (.inl ⟨x, rfl, (Except.ok.inj h).symm⟩))
  | bool b => exact .inr (.inr (.inr ⟨b, rfl, (Except.ok.inj h).symm⟩))
  | _ => cases h

theorem digits_letter {cs : List Char} (h : Decimal.Digits cs) : 'e' ∉ cs := fun hm =>
  absurd (h _ hm) (by decide)

theorem integer_letter (n : ℤ) : 'e' ∉ (toString n).toList := by
  have hdigits := digits_letter (Decimal.digits_toDigits n.natAbs)
  rw [Decimal.toString_signed]
  split
  · exact List.not_mem_cons_of_ne_of_not_mem (by decide) hdigits
  · exact hdigits

theorem displayText_letter {x : Binary64} (hx : x.isNaN = false) : 'e' ∉ x.displayText.toList := by
  have hsigned : ∀ body, 'e' ∉ body → 'e' ∉ (x.signedText body).toList := by
    intro body hbody
    rw [Binary64.signedText, String.toList_ofList]
    split
    · exact List.not_mem_cons_of_ne_of_not_mem (by decide) hbody
    · exact hbody
  rcases Binary64.displayText_body hx with ⟨-, htext⟩ | ⟨body, htext, hnumeral, -⟩
  · rw [htext]
    exact hsigned _ (by decide)
  · rw [htext]
    exact hsigned _ fun hm => (hnumeral _ hm).elim (by decide) (by decide)

theorem bool_letter (b : Bool) : 'e' ∈ (if b then "true" else "false").toList := by
  cases b <;> decide

/-- Two keys of tables with one text are one key, or one of them is that text as a string. -/
theorem mapKey_shared {k l : Datum} {t : String} (hk : k.key? = some k) (hl : l.key? = some l)
    (htk : mapKey k = .ok t) (htl : mapKey l = .ok t) : k = l ∨ k = .text t ∨ l = .text t := by
  have hint : ∀ (n : Int64) (x : Binary64), (Datum.float x).key? = some (.float x) →
      x.displayText ≠ toString n.toInt := by
    intro n x hx h
    obtain ⟨hnan, hbeyond⟩ := float_key hx
    obtain ⟨m, hm, hleast, hmost⟩ :=
      Binary64.displayText_integer hnan n.le_toInt n.toInt_lt h
    exact int64_range hleast hmost (hbeyond m hm)
  rcases mapKey_cases htk with htext | ⟨n, rfl, hn⟩ | ⟨x, rfl, hx⟩ | ⟨b, rfl, hb⟩
  · exact .inr (.inl htext)
  all_goals
    rcases mapKey_cases htl with htext | ⟨m, rfl, hm⟩ | ⟨y, rfl, hy⟩ | ⟨c, rfl, hc⟩
    · exact .inr (.inr htext)
  · left
    have hkeys := integerKey_toString n
    rw [← hn, hm, integerKey_toString] at hkeys
    rw [Option.some.inj hkeys]
  · exact absurd (hy.symm.trans hn) (hint n y hl)
  · exact absurd (hc ▸ bool_letter c) (hn ▸ integer_letter _)
  · exact absurd (hx.symm.trans hm) (hint m x hk)
  · left
    rw [Binary64.displayText_injective (float_key hk).1 (float_key hl).1 (hx.symm.trans hy)]
  · exact absurd (hc ▸ bool_letter c) (hx ▸ displayText_letter (float_key hk).1)
  · exact absurd (hb ▸ bool_letter b) (hm ▸ integer_letter _)
  · exact absurd (hb ▸ bool_letter b) (hy ▸ displayText_letter (float_key hl).1)
  · left
    revert hb hc
    cases b <;> cases c <;> rintro rfl h
    · rfl
    · exact absurd h (by decide)
    · exact absurd h (by decide)
    · rfl

end Crossing

end ScriptHost
