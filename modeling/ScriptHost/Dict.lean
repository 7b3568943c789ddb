/-!
# Dictionaries with ordered keys

A `Dict` is a list of entries in increasing order of their keys, each key once.  The order of
strings is by code point, which is also the order of their UTF-8 bytes.  `insert` and `erase` keep the
order; `Dict.Ordered` says it.
-/

set_option autoImplicit false

namespace ScriptHost

abbrev Dict (α : Type) := List (String × α)

namespace Dict

variable {α β : Type}

def empty : Dict α := []

def find? : Dict α → String → Option α
  | [], _ => none
  | (k, v) :: rest, key => if k = key then some v else Dict.find? rest key

def contains (d : Dict α) (key : String) : Bool := (Dict.find? d key).isSome

def insert : Dict α → String → α → Dict α
  | [], key, value => [(key, value)]
  | (k, v) :: rest, key, value =>
    if key < k then (key, value) :: (k, v) :: rest
    else if k = key then (key, value) :: rest
    else (k, v) :: Dict.insert rest key value

def erase (d : Dict α) (key : String) : Dict α := d.filter fun e => e.1 ≠ key

def ofList (entries : List (String × α)) : Dict α :=
  entries.foldl (fun d e => Dict.insert d e.1 e.2) []

def keys (d : Dict α) : List String := d.map (·.1)

def values (d : Dict α) : List α := d.map (·.2)

def mapValues (f : α → β) (d : Dict α) : Dict β := d.map fun e => (e.1, f e.2)

def override (d e : Dict α) : Dict α := e.foldl (fun d x => Dict.insert d x.1 x.2) d

def Ordered (d : Dict α) : Prop := d.Pairwise fun a b => a.1 < b.1

end Dict

end ScriptHost
