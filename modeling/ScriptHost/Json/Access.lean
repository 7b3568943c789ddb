import ScriptHost.Json.Reader

/-!
# Reading JSON without complaint

Accessors that answer an empty value where something else or nothing stands; decoding with messages is
the work of `Decoder`.
-/

set_option autoImplicit false

namespace ScriptHost

namespace Json

def field (j : Json) (key : String) : Json := (j.get? key).getD .null

def hasField (j : Json) (key : String) : Bool := (j.get? key).isSome

def text : Json → String
  | .str s => s
  | _ => ""

def textField (j : Json) (key : String) : String := (j.field key).text

def textField? (j : Json) (key : String) : Option String :=
  match j.field key with
  | .str s => some s
  | _ => none

def items : Json → List Json
  | .arr js => js
  | _ => []

def members : Json → List (String × Json)
  | .obj ms => ms
  | _ => []

def boolField (j : Json) (key : String) : Bool :=
  match j.field key with
  | .bool b => b
  | _ => false

def integerOfText (s : String) : Int :=
  match s.toList with
  | '-' :: rest => -(natOfDigits 10 rest : Int)
  | cs => natOfDigits 10 cs

def integer : Json → Int
  | .int n => n
  | .str s => integerOfText s
  | _ => 0

end Json

end ScriptHost
