import ScriptHost.Lua.Step
import ScriptHost.Lua.Parser

/-!
# Loading scripts

A source becomes a function without arguments of its own, or an error that names the chunk and the line.
The function has one variable around it, which holds the global variables.  The name of a chunk that the
host loads holds no zero byte.  Compiled sources are never loaded.
-/

set_option autoImplicit false

namespace ScriptHost.Lua

def shownNameSize : Nat := 59

def shownName (name : ByteArray) : ByteArray :=
  -- what messages call a chunk: the rest of a name after an equals sign, the rest of a file's name,
  -- or a line of the source
  match name.toList with
  | 61 :: rest => (rest.take shownNameSize).toByteArray
  | 64 :: rest =>
    if rest.length ≤ shownNameSize then rest.toByteArray
    else "...".toUTF8 ++ (rest.drop (rest.length - 56)).toByteArray
  | source =>
    let first := source.takeWhile (· != 10)
    let shown : ByteArray :=
      if first.length = source.length ∧ source.length < 45 then name
      else (first.take 45).toByteArray ++ "...".toUTF8
    "[string \"".toUTF8 ++ shown ++ "\"]".toUTF8

def looksCompiled (source : ByteArray) : Bool := source.toList.head? == some 0x1B

def nameFault? (chunk : String) : Option ScriptError :=
  -- positions count the mark before the name
  (chunk.toUTF8.toList.findIdx? (· == 0)).map fun i => .runtime
    ("invalid name: nul byte found in provided data at position: " ++ toString (i + 1))

def compile (shown source : ByteArray) : Except ByteArray Function :=
  (Function.ofScript source).mapError fun e => mark (some ⟨shown, e.line⟩) ++ e.message

namespace Heap

def addChunk (h : Heap) (shown : ByteArray) (f : Function) (globals : Datum) : Nat × Heap :=
  let (c, h) := h.addCell globals
  h.addRoutine (.script f ⟨shown, 0, 0, [⟨environment, c, 0⟩], []⟩)

def load (h : Heap) (source : ByteArray) (chunk : String) : Except ScriptError (Datum × Heap) :=
  let shown := chunk.toUTF8.extract 0 shownNameSize
  match nameFault? chunk with
  | some fault => .error fault
  | none =>
    if looksCompiled source then
      .error (.malformed "attempt to load a binary chunk (mode is 't')")
    else match compile shown source with
      | .error message => .error (.malformed (Utf8.lossy message))
      | .ok f =>
        match h.claim? functionSize with
        | none => .error .outOfMemory
        | some h =>
          let (a, h) := h.addChunk shown f (.table h.globals)
          .ok (.function a, h)

end Heap

end ScriptHost.Lua
