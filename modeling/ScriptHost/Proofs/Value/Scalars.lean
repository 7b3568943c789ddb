import ScriptHost.Bridge.Standard
import ScriptHost.Lua.Library
import ScriptHost.Proofs.Decimal.General
import ScriptHost.Proofs.Lua.Start

/-!
# Texts of scalars

A scalar has one text wherever the host shows it: on a line of the log, in the place of a placeholder and
as the key of a table.  A script that asks for the text of the same scalar gets that text too, unless it is
a number that more than fourteen digits or an exponent stand for.
-/

set_option autoImplicit false

namespace ScriptHost.Value

inductive Scalar : Value → Prop
  | nil : Scalar .nil
  | bool (b : Bool) : Scalar (.bool b)
  | int (n : Int64) : Scalar (.int n)
  | float (x : Binary64) (hx : x.isNaN = false) : Scalar (.float x)
  | string (s : String) : Scalar (.string s)

def datum : Value → Lua.Datum
  | .bool b => .bool b
  | .int n => .int n
  | .float x => .float x
  | .string s => .text s
  | _ => .nil

theorem Scalar.inward {v : Value} (hv : v.Scalar) (session : SessionId) (pins : List Pin) (h : Lua.Heap) :
    (¬ h.Unlimited ∧ Crossing.inward session pins v h = .error .outOfMemory) ∨
      ∃ n, Crossing.inward session pins v h = .ok (v.datum, h.spending n) := by
  cases hv with
  | string s =>
    simp only [Crossing.inward, Crossing.claim]
    obtain ⟨hlimit, hnone⟩ | ⟨n, hsome, -⟩ := h.claim_spends (Lua.stringSize s.utf8ByteSize)
    · exact .inl ⟨hlimit, by rw [hnone]⟩
    · exact .inr ⟨n, by rw [hsome]; rfl⟩
  | _ => exact .inr ⟨h.spent, rfl⟩

/-- A scalar has no metamethod that would be asked for its text. -/
theorem Scalar.toText {v : Value} (hv : v.Scalar) (caller : Lua.Caller) (h : Lua.Heap) :
    Lua.Library.run .toText [v.datum] caller h =
      Lua.build (Lua.plainText v.datum) (fun t h => .finish [t] h) h := by
  cases hv <;> rfl

theorem plainText_datum {v : Value} (hv : v.Scalar) :
    Lua.plainText v.datum = v.display.toUTF8 ↔ ∀ x, v = .float x → x.isInfinite = true ∨ x.Short := by
  cases hv with
  | float x hx =>
    have hbytes : Lua.plainText (datum (.float x)) = (display (.float x)).toUTF8 ↔
        x.displayText = x.generalText := String.toByteArray_inj.trans eq_comm
    rw [hbytes, Binary64.displayText_general hx]
    simp
  | nil => exact iff_of_true rfl (by simp)
  | bool b => exact iff_of_true (by cases b <;> rfl) (by simp)
  | int n => exact iff_of_true rfl (by simp)
  | string s => exact iff_of_true rfl (by simp)

theorem format_one (v : Value) : Template.format [.string "\x7b1\x7d", v] = .ok (.string v.display) := by
  show Except.ok (Value.string (.ofList (v.display.toList ++ []))) = _
  rw [List.append_nil, String.ofList_toList]

/-- The text of a scalar on the host, and when it is the text that a script gets: always, but for a number
that is neither infinite nor short.  All that can go wrong is that a limited memory has no room for it. -/
theorem scalar_texts {v : Value} (hv : v.Scalar) (b : Bridge) (id : SessionId) (pins : List Pin)
    (caller : Lua.Caller) (h : Lua.Heap) :
    b.standard id .log [v] = (.ok .nil, { b with log := b.log.push v.display }) ∧
      b.standard id .format [.string "\x7b1\x7d", v] = (.ok (.string v.display), b) ∧
      ∃ d s, ((¬ h.Unlimited ∧ Crossing.inward id pins v h = .error .outOfMemory) ∨
          ∃ n, Crossing.inward id pins v h = .ok (d, h.spending n)) ∧
        (∀ x, v = .float x → Crossing.mapKey d = .ok v.display) ∧
        Lua.Library.run .toText [d] caller h = Lua.build s (fun t h => .finish [t] h) h ∧
        (s = v.display.toUTF8 ↔ ∀ x, v = .float x → x.isInfinite = true ∨ x.Short) := by
  have hline : Bridge.logLine [v] = v.display := String.intercalate_singleton
  refine ⟨?_, ?_, v.datum, Lua.plainText v.datum, hv.inward id pins h, ?_, hv.toText caller h,
    plainText_datum hv⟩
  · rw [Bridge.standard, hline]
  · rw [Bridge.standard, format_one]
  · rintro x rfl
    rfl

def unnamed : Lua.Caller := ⟨none, fun _ => none, none, false, fun _ => .foreign⟩

theorem scalar_texts_tenth : (Value.float .tenth).Scalar ∧ Binary64.tenth.displayText = "0.1" ∧
    Lua.Library.run .toText [.float .tenth] unnamed (.start true none) =
      .finish [.string "0.1".toUTF8] (.start true none) := by
  have hscalar : (Value.float .tenth).Scalar := .float _ (by decide +kernel)
  have hdisplay : Binary64.tenth.displayText = "0.1" := by decide +kernel
  obtain ⟨-, -, d, s, ⟨hlimit, -⟩ | ⟨n, hin⟩, -, hrun, hagree⟩ :=
    scalar_texts hscalar (.start 0 .standard) ⟨0, 0⟩ [] unnamed (.start true none)
  · exact absurd (Lua.Heap.start_allocator true none) hlimit
  have hshown : s = "0.1".toUTF8 := hdisplay ▸ hagree.mpr (by rintro x ⟨⟩; exact .inr Binary64.tenth_short)
  obtain ⟨rfl, -⟩ := Prod.mk.inj (Except.ok.inj hin)
  rw [Lua.build_unlimited (Lua.Heap.start_allocator true none), hshown] at hrun
  exact ⟨hscalar, hdisplay, hrun⟩

def tenths : Binary64 := ⟨0x3FD3333333333334⟩

/-- The sum is no three tenths on the host, and a script gets the text of three tenths. -/
theorem tenths_texts : (Value.float tenths).Scalar ∧
    Crossing.inward ⟨0, 0⟩ [] (.float tenths) (.start true none) = .ok (.float tenths, .start true none) ∧
    Lua.Library.run .toText [.float tenths] unnamed (.start true none) =
      .finish [.string "0.3".toUTF8] (.start true none) ∧
    (Value.float tenths).display = "0.30000000000000004" ∧
    "0.3".toUTF8 ≠ (Value.float tenths).display.toUTF8 := by
  have hscalar : (Value.float tenths).Scalar := .float _ (by decide +kernel)
  have hgeneral : tenths.generalText = "0.3" := by decide +kernel
  have hdisplay : (Value.float tenths).display = "0.30000000000000004" := by decide +kernel
  refine ⟨hscalar, rfl, ?_, hdisplay, ?_⟩
  · rw [← hgeneral]
    exact (hscalar.toText _ _).trans (Lua.build_unlimited (Lua.Heap.start_allocator true none) _ _)
  · rw [hdisplay]
    exact String.toByteArray_inj.not.mpr (by decide)

end ScriptHost.Value
