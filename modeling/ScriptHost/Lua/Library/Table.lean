import ScriptHost.Lua.Library.Arguments

/-!
# The library of tables

The functions read and write through metamethods, as scripts do, except for `sort`, which exchanges
the items of the table itself.  Sorting is a quicksort that takes the middle item of the first, the
middle and the last as its pivot and sorts the shorter side first.
-/

set_option autoImplicit false

namespace ScriptHost.Lua.Library

open Arguments

def getAt (t : Datum) (i : Int) (k : Datum → Heap → Step) (h : Heap) : Step :=
  index t (.int (Int64.ofInt i)) .nowhere k h

def setAt (t : Datum) (i : Int) (value : Datum) (k : Heap → Step) (h : Heap) : Step :=
  setIndex t (.int (Int64.ofInt i)) value .nowhere k h

def lengthOf (t : Datum) (wrong : Complaint → Heap → Step) (k : Int → Heap → Step) (h : Heap) : Step :=
  length t .nowhere (fun d h =>
    match d.toInt? with
    | some n => k n.toInt h
    | none => wrong (.failure "object length is not an integer") h) h

def itemsFrom (t : Datum) : Nat → Int → (List Datum → Heap → Step) → Heap → Step
  | 0, _, k, h => k [] h
  | n + 1, i, k, h => getAt t i (fun d h => itemsFrom t n (i + 1) (fun ds h => k (d :: ds) h) h) h

def unpack (args : List Datum) (wrong : Complaint → Heap → Step) (h : Heap) : Step :=
  let t := arg args 1
  match integerOr args 2 1 with
  | .error c => wrong c h
  | .ok i =>
    let go (last : Int) (h : Heap) : Step :=
      if last < i.toInt then .finish [] h
      else if 1000000 ≤ last - i.toInt then wrong (.failure "too many results to unpack") h
      else itemsFrom t (last - i.toInt + 1).toNat i.toInt (fun ds h => .finish ds h) h
    if (arg args 3).isNil then lengthOf t wrong go h
    else match integer args 3 with
      | .error c => wrong c h
      | .ok j => go j.toInt h

def joined (t : Datum) (separator : ByteArray) (wrong : Complaint → Heap → Step) :
    Nat → Int → ByteArray → Heap → Step
  | 0, _, acc, h => build acc (fun d h => .finish [d] h) h
  | n + 1, i, acc, h =>
    getAt t i (fun d h =>
      match d.toBytes? with
      | some s =>
        let acc := acc ++ s
        .pause h fun h => joined t separator wrong n (i + 1) (if n = 0 then acc else acc ++ separator) h
      | none =>
        wrong (.failure ("invalid value (at index " ++ toString i ++ ") in table for 'concat'")) h) h

def concat (args : List Datum) (wrong : Complaint → Heap → Step) (h : Heap) : Step :=
  match table args 1 with
  | .error c => wrong c h
  | .ok a =>
    lengthOf (.table a) wrong (fun size h =>
      let read : Checked (ByteArray × Int64 × Int64) := do
        let separator ← bytesOr args 2 ByteArray.empty
        let i ← integerOr args 3 1
        let j ← integerOr args 4 (Int64.ofInt size)
        return (separator, i, j)
      match read with
      | .error c => wrong c h
      | .ok (separator, i, j) =>
        joined (.table a) separator wrong (j.toInt - i.toInt + 1).toNat i.toInt ByteArray.empty h) h

def moveUp (t : Datum) : Nat → Int → (Heap → Step) → Heap → Step
  | 0, _, k, h => k h
  | n + 1, i, k, h =>
    getAt t (i - 1) (fun d h => setAt t i d (fun h => .pause h fun h => moveUp t n (i - 1) k h) h) h

def moveDown (t : Datum) : Nat → Int → (Heap → Step) → Heap → Step
  | 0, _, k, h => k h
  | n + 1, i, k, h =>
    getAt t (i + 1) (fun d h => setAt t i d (fun h => .pause h fun h => moveDown t n (i + 1) k h) h) h

def insert (args : List Datum) (wrong : Complaint → Heap → Step) (h : Heap) : Step :=
  match table args 1 with
  | .error c => wrong c h
  | .ok a =>
    let t := Datum.table a
    lengthOf t wrong (fun size h =>
      match args.length with
      | 2 => setAt t (size + 1) (arg args 2) (fun h => .finish [] h) h
      | 3 =>
        match integer args 2 with
        | .error c => wrong c h
        | .ok p =>
          let p := p.toInt
          if 1 ≤ p ∧ p ≤ size + 1 then
            moveUp t (size + 1 - p).toNat (size + 1) (fun h =>
              setAt t p (arg args 3) (fun h => .finish [] h) h) h
          else wrong (.argument 2 "position out of bounds") h
      | _ => wrong (.failure "wrong number of arguments to 'insert'") h) h

def remove (args : List Datum) (wrong : Complaint → Heap → Step) (h : Heap) : Step :=
  match table args 1 with
  | .error c => wrong c h
  | .ok a =>
    let t := Datum.table a
    lengthOf t wrong (fun size h =>
      match integerOr args 2 (Int64.ofInt size) with
      | .error c => wrong c h
      | .ok p =>
        let p := p.toInt
        if p = size ∨ (1 ≤ p ∧ p ≤ size + 1) then
          getAt t p (fun removed h =>
            moveDown t (size - p).toNat p (fun h =>
              setAt t (max p size) .nil (fun h => .finish [removed] h) h) h) h
        else wrong (.argument 2 "position out of bounds") h) h

def pack (args : List Datum) (h : Heap) : Step :=
  let t := ((Table.sized args.length 1).setItems args).set (.text "n") (.ofNat args.length)
  claim (tableSize + entrySize * (args.length + 1)) (fun h =>
    let (a, h) := h.allocate t
    .finish [.table a] h) h

def tableLike (args : List Datum) (n : Nat) (event : String) (h : Heap) : Checked Datum :=
  let d := arg args n
  match d with
  | .table _ => .ok d
  | _ => if (h.metamethod d event).isNil then wrongType args n "table" else .ok d

def copyItems (source target : Datum) (upward : Bool) : Nat → Int → Int → (Heap → Step) → Heap → Step
  | 0, _, _, k, h => k h
  | n + 1, i, j, k, h =>
    getAt source i (fun d h =>
      setAt target j d (fun h =>
        let step : Int := if upward then 1 else -1
        .pause h fun h => copyItems source target upward n (i + step) (j + step) k h) h) h

def moveArgs (args : List Datum) (h : Heap) : Checked (Int × Int × Int × Datum × Datum) := do
  let first := (← integer args 2).toInt
  let last := (← integer args 3).toInt
  let place := (← integer args 4).toInt
  let source ← tableLike args 1 "__index" h
  let target ← tableLike args (if (arg args 5).isNil then 1 else 5) "__newindex" h
  let most := Int64.maxValue.toInt
  if last < first then return (first, last, place, source, target)
  else if ¬(0 < first ∨ last < most + first) then .error (.argument 3 "too many elements to move")
  else if most - (last - first + 1) + 1 < place then .error (.argument 4 "destination wrap around")
  else return (first, last, place, source, target)

def move (args : List Datum) (wrong : Complaint → Heap → Step) (h : Heap) : Step :=
  -- in the order in which no item is overwritten before it is read
  match moveArgs args h with
  | .error c => wrong c h
  | .ok (first, last, place, source, target) =>
    let count := (last - first + 1).toNat
    let finish (h : Heap) : Step := .finish [target] h
    let up (h : Heap) : Step := copyItems source target true count first place finish h
    let down (h : Heap) : Step :=
      copyItems source target false count last (place + (last - first)) finish h
    if last < place ∨ place ≤ first then up h
    else if (arg args 5).isNil then down h
    else equal source target none (fun same h => if same then down h else up h) h

structure Sorting where
  address : Nat
  before : Datum → Datum → (Bool → Heap → Step) → Heap → Step
  invalid : Heap → Step

namespace Sorting

def get (s : Sorting) (h : Heap) (i : Nat) : Datum := h.get s.address (.ofNat i)

def set (s : Sorting) (h : Heap) (i : Nat) (d : Datum) : Heap := h.set s.address (.ofNat i) d

def swap (s : Sorting) (h : Heap) (i j : Nat) : Heap :=
  let a := s.get h i
  let b := s.get h j
  s.set (s.set h i b) j a

def order (s : Sorting) (i j : Nat) (k : Bool → Heap → Step) (h : Heap) : Step :=
  s.before (s.get h j) (s.get h i) (fun r h => k r (if r then s.swap h i j else h)) h

def climb (s : Sorting) (pivot : Datum) (top : Nat) : Nat → Nat → (Nat → Heap → Step) → Heap → Step
  | 0, _, _, h => s.invalid h
  | fuel + 1, i, k, h =>
    s.before (s.get h i) pivot (fun r h =>
      if r then
        if i = top then s.invalid h
        else .pause h fun h => climb s pivot top fuel (i + 1) k h
      else k i h) h

def descend (s : Sorting) (pivot : Datum) (i : Nat) : Nat → Nat → (Nat → Heap → Step) → Heap → Step
  | 0, _, _, h => s.invalid h
  | fuel + 1, j, k, h =>
    s.before pivot (s.get h j) (fun r h =>
      if r then
        if j < i then s.invalid h
        else .pause h fun h => descend s pivot i fuel (j - 1) k h
      else k j h) h

def partition (s : Sorting) (pivot : Datum) (size up : Nat) :
    Nat → Nat → Nat → (Nat → Heap → Step) → Heap → Step
  | 0, _, _, _, h => s.invalid h
  | fuel + 1, i, j, k, h =>
    s.climb pivot (up - 1) (size + 2) (i + 1) (fun i h =>
      s.descend pivot i (size + 2) (j - 1) (fun j h =>
        if j < i then k i (s.swap h (up - 1) i)
        else partition s pivot size up fuel i j k (s.swap h i j)) h) h

def sort (s : Sorting) (size : Nat) : Nat → Nat → Nat → (Heap → Step) → Heap → Step
  | 0, _, _, k, h => k h
  | fuel + 1, lo, up, k, h =>
    if up ≤ lo then k h
    else
      s.order lo up (fun _ h =>
        if up - lo = 1 then k h
        else
          let p := (lo + up) / 2
          let go (h : Heap) : Step :=
            if up - lo = 2 then k h
            else
              let pivot := s.get h p
              let h := s.swap h p (up - 1)
              s.partition pivot size up (size + 2) lo (up - 1) (fun p h =>
                if p - lo < up - p then
                  sort s size fuel lo (p - 1) (fun h => sort s size fuel (p + 1) up k h) h
                else
                  sort s size fuel (p + 1) up (fun h => sort s size fuel lo (p - 1) k h) h) h
          s.order lo p (fun swapped h =>
            if swapped then go h else s.order p up (fun _ h => go h) h) h) h

end Sorting

def sort (args : List Datum) (wrong : Complaint → Heap → Step) (h : Heap) : Step :=
  match table args 1 with
  | .error c => wrong c h
  | .ok a =>
    lengthOf (.table a) wrong (fun size h =>
      if size ≤ 1 then .finish [] h
      else
        let read : Checked Datum :=
          if (arg args 2).isNil then .ok .nil else function args 2
        match read with
        | .error c => wrong c h
        | .ok f =>
          let s : Sorting :=
            { address := a
              before := fun x y k h => match f with
                | .nil => less false x y none k h
                | f => callOne f [x, y] none (fun d h => k d.isTruthy h) h
              invalid := fun h => wrong (.failure "invalid order function for sorting") h }
          s.sort size.toNat (size.toNat + 1) 1 size.toNat (fun h => .finish [] h) h) h

end ScriptHost.Lua.Library
