import ScriptHost.Bridge.Standard
import ScriptHost.Proofs.Crossing.Keys

/-!
# The two JSON forms of a value

`Value.serialize?` refuses functions and `Value.toJson` names them; on every other value the two agree.
What `Value.ofJson` reads back is the value with nil for each number that JSON has no literal for, and a
JSON value comes back from being read as it was exactly when all its numbers are numbers of a value.
-/

set_option autoImplicit false

namespace ScriptHost

/-- Every integer fits 64 bits with a sign, and every other number has a literal. -/
inductive Json.Exact : Json → Prop
  | null : Exact .null
  | bool (b : Bool) : Exact (.bool b)
  | int (n : Int) (h : Int64.minValue.toInt ≤ n ∧ n ≤ Int64.maxValue.toInt) : Exact (.int n)
  | float (x : Binary64) (h : x.isFinite = true) : Exact (.float x)
  | str (s : String) : Exact (.str s)
  | arr (items : List Json) (h : ∀ j ∈ items, Exact j) : Exact (.arr items)
  | obj (members : List (String × Json)) (h : ∀ e ∈ members, Exact e.2) : Exact (.obj members)

namespace Value

inductive Finite : Value → Prop
  | nil : Finite .nil
  | bool (b : Bool) : Finite (.bool b)
  | int (n : Int64) : Finite (.int n)
  | float (x : Binary64) (h : x.isFinite = true) : Finite (.float x)
  | string (s : String) : Finite (.string s)
  | array (items : List Value) (h : ∀ v ∈ items, Finite v) : Finite (.array items)
  | map (members : List (String × Value)) (h : ∀ e ∈ members, Finite e.2) : Finite (.map members)
  | function (f : HostFn) : Finite (.function f)
  | callable (handle : Handle) : Finite (.callable handle)

mutual

def literal : Value → Value
  | .float x => if x.isFinite then .float x else .nil
  | .array items => .array (literalItems items)
  | .map members => .map (literalMembers members)
  | .nil => .nil
  | .bool b => .bool b
  | .int n => .int n
  | .string s => .string s
  | .function f => .function f
  | .callable h => .callable h

def literalItems : List Value → List Value
  | [] => []
  | v :: rest => v.literal :: literalItems rest

def literalMembers : List (String × Value) → List (String × Value)
  | [] => []
  | (k, v) :: rest => (k, v.literal) :: literalMembers rest

end

mutual

@[simp] theorem serialize_eq (v : Value) :
    v.serialize? = if v.holdsFunction then none else some v.toJson := by
  cases v with
  | nil | bool | int | float | string | function | callable => rfl
  | array items =>
    rw [serialize?, serializeItems_eq items, holdsFunction, toJson]
    split <;> rfl
  | map members =>
    rw [serialize?, serializeMembers_eq members, holdsFunction, toJson]
    split <;> rfl

@[simp] theorem serializeItems_eq (items : List Value) :
    serializeItems? items = if itemsHoldFunction items then none else some (itemsJson items) := by
  cases items with
  | nil => rfl
  | cons v rest =>
    rw [serializeItems?, serialize_eq v, serializeItems_eq rest, itemsHoldFunction, itemsJson]
    cases v.holdsFunction <;> cases itemsHoldFunction rest <;> rfl

theorem serializeMembers_eq (members : List (String × Value)) :
    serializeMembers? members =
      if membersHoldFunction members then none else some (membersJson members) := by
  cases members with
  | nil => rfl
  | cons e rest =>
    obtain ⟨k, v⟩ := e
    rw [serializeMembers?, serialize_eq v, serializeMembers_eq rest, membersHoldFunction, membersJson]
    cases v.holdsFunction <;> cases membersHoldFunction rest <;> rfl

end

mutual

theorem ofJson_toJson {v : Value} (h : v.holdsFunction = false) : ofJson v.toJson = v.literal := by
  cases v with
  | nil | bool | string => rfl
  | int n => rw [toJson, ofJson, ofInt, Crossing.int64_toInt, literal]
  | float x =>
    rw [toJson, Json.ofBinary, literal]
    split <;> rfl
  | array items =>
    rw [toJson, ofJson, ofJsonItems_itemsJson h, literal]
  | map members =>
    rw [toJson, ofJson, ofJsonMembers_membersJson h, literal]
  | function | callable => cases h

theorem ofJsonItems_itemsJson {items : List Value} (h : itemsHoldFunction items = false) :
    ofJsonItems (itemsJson items) = literalItems items := by
  cases items with
  | nil => rfl
  | cons v rest =>
    obtain ⟨hv, hrest⟩ := Bool.or_eq_false_iff.mp h
    rw [itemsJson, ofJsonItems, ofJson_toJson hv, ofJsonItems_itemsJson hrest, literalItems]

theorem ofJsonMembers_membersJson {members : List (String × Value)}
    (h : membersHoldFunction members = false) :
    ofJsonMembers (membersJson members) = literalMembers members := by
  cases members with
  | nil => rfl
  | cons e rest =>
    obtain ⟨k, v⟩ := e
    obtain ⟨hv, hrest⟩ := Bool.or_eq_false_iff.mp h
    rw [membersJson, ofJsonMembers, ofJson_toJson hv, ofJsonMembers_membersJson hrest, literalMembers]

end

mutual

theorem literal_iff (v : Value) : v.literal = v ↔ v.Finite := by
  cases v with
  | nil => exact iff_of_true rfl .nil
  | bool b => exact iff_of_true rfl (.bool b)
  | int n => exact iff_of_true rfl (.int n)
  | string s => exact iff_of_true rfl (.string s)
  | function f => exact iff_of_true rfl (.function f)
  | callable handle => exact iff_of_true rfl (.callable handle)
  | float x =>
    rw [literal]
    constructor
    · intro h
      by_cases hx : x.isFinite = true
      · exact .float x hx
      · rw [if_neg hx] at h
        cases h
    · rintro ⟨⟩
      next hx => exact if_pos hx
  | array items =>
    rw [literal, Value.array.injEq, literalItems_iff items]
    constructor
    · exact .array items
    · rintro ⟨⟩
      assumption
  | map members =>
    rw [literal, Value.map.injEq, literalMembers_iff members]
    constructor
    · exact .map members
    · rintro ⟨⟩
      assumption

theorem literalItems_iff (items : List Value) :
    literalItems items = items ↔ ∀ v ∈ items, v.Finite := by
  cases items with
  | nil => simp [literalItems]
  | cons v rest =>
    rw [literalItems, List.cons.injEq, literal_iff v, literalItems_iff rest, List.forall_mem_cons]

theorem literalMembers_iff (members : List (String × Value)) :
    literalMembers members = members ↔ ∀ e ∈ members, e.2.Finite := by
  cases members with
  | nil => simp [literalMembers]
  | cons e rest =>
    obtain ⟨k, v⟩ := e
    rw [literalMembers, List.cons.injEq, Prod.mk.injEq, literal_iff v, literalMembers_iff rest,
      List.forall_mem_cons]
    simp

end

theorem ofBinary_float (x : Binary64) : Json.ofBinary x = .float x ↔ x.isFinite = true := by
  unfold Json.ofBinary
  split <;> simp_all

/-- An integer that does not fit comes back as another kind of number, or as none. -/
theorem ofInt_toJson (n : Int) :
    (ofInt n).toJson = .int n ↔ Int64.minValue.toInt ≤ n ∧ n ≤ Int64.maxValue.toInt := by
  by_cases h : Int64.minValue.toInt ≤ n ∧ n ≤ Int64.maxValue.toInt
  · have hn : int64? n = some (Int64.ofInt n) := if_pos h
    rw [ofInt, hn]
    exact iff_of_true (congrArg Json.int (Crossing.toInt_of_int64 hn)) h
  · have hn : int64? n = none := if_neg h
    have hother : Json.ofBinary (.ofInt n) ≠ .int n := by
      unfold Json.ofBinary
      split <;> simp
    rw [ofInt, hn]
    exact iff_of_false hother h

mutual

theorem toJson_ofJson (j : Json) : (ofJson j).toJson = j ↔ j.Exact := by
  cases j with
  | null => exact iff_of_true rfl .null
  | bool b => exact iff_of_true rfl (.bool b)
  | str s => exact iff_of_true rfl (.str s)
  | int n =>
    rw [ofJson, ofInt_toJson]
    constructor
    · exact .int n
    · rintro ⟨⟩
      assumption
  | float x =>
    rw [ofJson, toJson, ofBinary_float]
    constructor
    · exact .float x
    · rintro ⟨⟩
      assumption
  | arr items =>
    rw [ofJson, toJson, Json.arr.injEq, itemsJson_ofJsonItems items]
    constructor
    · exact .arr items
    · rintro ⟨⟩
      assumption
  | obj members =>
    rw [ofJson, toJson, Json.obj.injEq, membersJson_ofJsonMembers members]
    constructor
    · exact .obj members
    · rintro ⟨⟩
      assumption

theorem itemsJson_ofJsonItems (items : List Json) :
    itemsJson (ofJsonItems items) = items ↔ ∀ j ∈ items, j.Exact := by
  cases items with
  | nil => simp [ofJsonItems, itemsJson]
  | cons j rest =>
    rw [ofJsonItems, itemsJson, List.cons.injEq, toJson_ofJson j, itemsJson_ofJsonItems rest,
      List.forall_mem_cons]

theorem membersJson_ofJsonMembers (members : List (String × Json)) :
    membersJson (ofJsonMembers members) = members ↔ ∀ e ∈ members, e.2.Exact := by
  cases members with
  | nil => simp [ofJsonMembers, membersJson]
  | cons e rest =>
    obtain ⟨k, j⟩ := e
    rw [ofJsonMembers, membersJson, List.cons.injEq, Prod.mk.injEq, toJson_ofJson j,
      membersJson_ofJsonMembers rest, List.forall_mem_cons]
    simp

end

/-- The copy of a value without functions; any other value is refused at run time. -/
theorem deepCopy_eq (v : Value) : Tables.deepCopy v =
    if v.holdsFunction then .error (.runtime ("utils.deepCopy: " ++ unserializable))
    else .ok v.literal := by
  rw [Tables.deepCopy, serialize_eq]
  cases h : v.holdsFunction with
  | true => rfl
  | false => exact congrArg Except.ok (ofJson_toJson h)

/-- A value is serialized exactly when it holds no function, and then as `toJson` writes it.  Read back,
and copied by the standard function, it is the value with nil for each number without a literal, so
itself exactly when it has none; a value with a function is refused with a runtime error.  And a JSON
value that is read is written again as it was exactly when its numbers are exact. -/
theorem json_forms_agree (v : Value) :
    (v.serialize?.isSome = true ↔ v.holdsFunction = false) ∧
      (∀ j, v.serialize? = some j → j = v.toJson) ∧
      (v.holdsFunction = false → ofJson v.toJson = v.literal) ∧
      (v.literal = v ↔ v.Finite) ∧
      (∀ (b : Bridge) (id : SessionId) (rest : List Value),
        (v.holdsFunction = false → b.standard id .deepCopy (v :: rest) = (.ok v.literal, b)) ∧
        (v.holdsFunction = true → ∃ e, b.standard id .deepCopy (v :: rest) = (.error e, b) ∧
          e.kind = .runtime)) ∧
      ∀ j : Json, (ofJson j).toJson = j ↔ j.Exact := by
  refine ⟨?_, ?_, ofJson_toJson, literal_iff v, fun b id rest => ?_, toJson_ofJson⟩
  · rw [serialize_eq]
    cases v.holdsFunction <;> simp
  · intro j hj
    rw [serialize_eq] at hj
    split at hj
    · cases hj
    · exact (Option.some.inj hj).symm
  · have hcopy : b.standard id .deepCopy (v :: rest) = (Tables.deepCopy v, b) := rfl
    rw [hcopy, deepCopy_eq]
    constructor
    · intro h
      rw [h]
      rfl
    · intro h
      rw [h]
      exact ⟨_, rfl, rfl⟩

end Value

end ScriptHost
