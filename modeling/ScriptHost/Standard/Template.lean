import ScriptHost.Value.Text
import ScriptHost.ScriptError
import ScriptHost.Json.Reader

/-!
# Templates

A placeholder is a number in braces, and stands for the argument of that position.  A placeholder
without an argument and every other brace stay as they are, and text that was put in is not read again.
-/

set_option autoImplicit false

namespace ScriptHost

namespace Template

def argument? (args : List Value) (position : Nat) : Option Value :=
  if position = 0 then none else args[position - 1]?

def placeholder? (cs : List Char) : Option (List Char) :=
  let digits := cs.takeWhile Json.isDigit
  if digits.isEmpty then none
  else if (cs.drop digits.length).head? = some '\x7d' then some digits
  else none

def substitution? (args : List Value) (cs : List Char) : Option (List Char × Nat) :=
  -- the text that a placeholder after its opening brace stands for, and how long the placeholder is
  -- from there on
  match placeholder? cs with
  | none => none
  | some digits =>
    (argument? args (Json.natOfDigits 10 digits)).map fun v =>
      (v.display.toList, digits.length + 1)

def fillFrom (args : List Value) : Nat → List Char → List Char
  -- so many characters are left out first
  | _, [] => []
  | skip + 1, _ :: rest => fillFrom args skip rest
  | 0, c :: rest =>
    if c = '\x7b' then
      match substitution? args rest with
      | some (text, size) => text ++ fillFrom args size rest
      | none => c :: fillFrom args 0 rest
    else c :: fillFrom args 0 rest

def fill (template : String) (args : List Value) : String :=
  String.ofList (fillFrom args 0 template.toList)

def format : List Value → Except ScriptError Value
  | .string template :: args => .ok (.string (fill template args))
  | _ => .error (.runtime "utils.format: first argument must be a template string")

end Template

end ScriptHost
