import ScriptHost.Lua.Token

/-!
# Syntax of scripts

Expressions and statements, with the lines that run-time errors name.  A method call, a call
statement and the like keep their own form; `a.b` is an index with a string constant, and
`function a.b() end` is an assignment.  A `break` is a jump to a label that no script can declare.
-/

set_option autoImplicit false

namespace ScriptHost.Lua

inductive Arithmetic where
  | add
  | sub
  | mul
  | div
  | mod
  | pow
  | idiv
  | band
  | bor
  | bxor
  | shl
  | shr
deriving DecidableEq, Inhabited, Repr

inductive Comparison where
  | eq
  | ne
  | lt
  | le
  | gt
  | ge
deriving DecidableEq, Inhabited, Repr

inductive Unary where
  | negate
  | not
  | length
  | complement
deriving DecidableEq, Inhabited, Repr

mutual

inductive Expr where
  | nil
  | bool (b : Bool)
  | number (n : Number)
  | string (s : ByteArray)
  | varargs
  | name (x : String) (line : Nat)
  | index (table key : Expr) (line : Nat)
  | call (fn : Expr) (args : List Expr) (line : Nat)
  -- `line` is that of the arguments, `nameLine` that of the method's name
  | method (object : Expr) (name : ByteArray) (args : List Expr) (line nameLine : Nat)
  | function (f : Function)
  | arithmetic (op : Arithmetic) (left right : Expr) (line : Nat)
  | compare (op : Comparison) (left right : Expr) (line : Nat)
  | concat (left right : Expr) (line : Nat)
  | unary (op : Unary) (operand : Expr) (line : Nat)
  | both (left right : Expr)
  | either (left right : Expr)
  | single (e : Expr)
  | table (fields : List Field)

inductive Field where
  | item (value : Expr)
  | entry (key value : Expr) (line : Nat)

inductive Function where
  | mk (params : List String) (isVararg : Bool) (body : List Stat)

inductive Stat where
  | locals (names : List String) (values : List Expr)
  | close (name : String) (line : Nat)
  | localFunction (name : String) (f : Function)
  | assign (targets values : List Expr) (line : Nat)
  | call (e : Expr)
  | block (body : List Stat)
  | loopWhile (condition : Expr) (body : List Stat)
  | loopUntil (body : List Stat) (condition : Expr)
  | branch (condition : Expr) (yes no : List Stat)
  -- counts from `start` to `limit`; `line` is that of `do`
  | count (name : String) (start limit : Expr) (step : Option Expr) (body : List Stat) (line : Nat)
  -- calls an iterator; `line` is that of the first value after `in`
  | iterate (names : List String) (values : List Expr) (body : List Stat) (line : Nat)
  | ret (values : List Expr)
  | label (name : String)
  | jump (label : String)

end

instance : Inhabited Expr := ⟨.nil⟩

instance : Inhabited Function := ⟨.mk [] false []⟩

instance : Inhabited Stat := ⟨.jump ""⟩

abbrev Block := List Stat

def loopEnd : String := "break"

def environment : String := "_ENV"

end ScriptHost.Lua
