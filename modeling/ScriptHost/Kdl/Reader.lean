import ScriptHost.Kdl.Token

/-!
# Reading KDL

`Document.ofText?` reads the second version of the language: a document, or nothing when the text is
not one.
-/

set_option autoImplicit false

namespace ScriptHost.Kdl

def skipAnnotation? : Ahead → Option Ahead
  | '(' :: rest =>
    match skipSpace? (rest.length + 1) rest with
    | none => none
    | some rest =>
      match string? rest with
      | none => none
      | some (_, rest) =>
        match skipSpace? (rest.length + 1) rest with
        | some (')' :: rest) => skipSpace? (rest.length + 1) rest
        | _ => none
  | cs => some cs

def annotatedValue? (cs : Ahead) : Option (Value × Ahead) := (skipAnnotation? cs).bind value?

def entry? (cs : Ahead) : Option (Entry × Ahead) :=
  -- a string followed by an equals sign names a property
  let property : Option (String × Ahead) :=
    if startsNumber cs then none
    else match string? cs with
      | none => none
      | some (name, rest) =>
        match skipSpace? (rest.length + 1) rest with
        | some ('=' :: rest) => (skipSpace? (rest.length + 1) rest).map (name, ·)
        | _ => none
  match property with
  | some (name, rest) => (annotatedValue? rest).map fun (v, rest) => (⟨some name, v⟩, rest)
  | none => (annotatedValue? cs).map fun (v, rest) => (⟨none, v⟩, rest)

def atNodeEnd : Ahead → Bool
  | [] => true
  | '/' :: '/' :: _ => true
  | c :: _ => c == ';' || c == '\x7d' || isBreak c

mutual

def nodes? : Nat → Bool → List Node → Ahead → Option (List Node × Ahead)
  | 0, _, _, _ => none
  | fuel + 1, block, acc, cs =>
    match skipLines? (cs.length + 1) cs with
    | none => none
    | some [] => if block then none else some (acc.reverse, [])
    | some ('\x7d' :: rest) => if block then some (acc.reverse, rest) else none
    | some ('/' :: '-' :: rest) =>
      match skipLines? (rest.length + 1) rest with
      | none => none
      | some rest =>
        match node? fuel rest with
        | none => none
        | some (_, rest) => nodes? fuel block acc rest
    | some rest =>
      match node? fuel rest with
      | none => none
      | some (n, rest) => nodes? fuel block (n :: acc) rest

def node? : Nat → Ahead → Option (Node × Ahead)
  -- a closing brace is left for the block
  | 0, _ => none
  | fuel + 1, cs =>
    match (skipAnnotation? cs).bind string? with
    | none => none
    | some (name, rest) =>
      match entries? fuel [] rest with
      | none => none
      | some (entries, children, rest) =>
        let n := Node.mk name entries children
        match rest with
        | ';' :: rest => some (n, rest)
        | rest => if atNodeEnd rest then some (n, rest) else none

def entries? : Nat → List Entry → Ahead → Option (List Entry × Option (List Node) × Ahead)
  | 0, _, _ => none
  | fuel + 1, acc, cs =>
    match skipSpace? (cs.length + 1) cs with
    | none => none
    | some ('/' :: '-' :: rest) =>
      match skipLines? (rest.length + 1) rest with
      | none => none
      | some ('\x7b' :: rest) =>
        match nodes? fuel true [] rest with
        | none => none
        | some (_, rest) => (blocks? fuel none rest).map fun (b, rest) => (acc.reverse, b, rest)
      | some rest =>
        match entry? rest with
        | none => none
        | some (_, rest) => entries? fuel acc rest
    | some rest =>
      if atNodeEnd rest then some (acc.reverse, none, rest)
      else match rest with
        | '\x7b' :: _ => (blocks? fuel none rest).map fun (b, rest) => (acc.reverse, b, rest)
        | _ =>
          if rest.length = cs.length then none
          else match entry? rest with
            | none => none
            | some (e, rest) => entries? fuel (e :: acc) rest

def blocks? : Nat → Option (List Node) → Ahead → Option (Option (List Node) × Ahead)
  | 0, _, _ => none
  | fuel + 1, found, cs =>
    match skipSpace? (cs.length + 1) cs with
    | none => none
    | some ('/' :: '-' :: rest) =>
      match skipLines? (rest.length + 1) rest with
      | some ('\x7b' :: rest) =>
        match nodes? fuel true [] rest with
        | none => none
        | some (_, rest) => blocks? fuel found rest
      | _ => none
    | some ('\x7b' :: rest) =>
      if found.isSome then none
      else match nodes? fuel true [] rest with
        | none => none
        | some (children, rest) => blocks? fuel (some children) rest
    | some rest => some (found, rest)

end

def Document.ofText? (text : String) : Option Document :=
  let cs := match text.toList with
    | c :: rest => if c.toNat = 0xFEFF then rest else c :: rest
    | [] => []
  (nodes? (2 * cs.length + 4) false [] cs).map (·.1)

end ScriptHost.Kdl
