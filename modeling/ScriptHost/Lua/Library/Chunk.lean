import ScriptHost.Lua.Load
import ScriptHost.Lua.Library.Text

/-!
# Scripts that load scripts

The source is a string or what a function returns until it returns nothing; such a function is called to its
end before the source is read.  What is wrong with a source is a result.
-/

set_option autoImplicit false

namespace ScriptHost.Lua.Library

open Arguments

def compileAs (mode name source : ByteArray) : Except ByteArray Function :=
  let refused (kind : String) : Except ByteArray Function :=
    .error (("attempt to load a " ++ kind ++ " chunk (mode is '").toUTF8 ++ mode ++ "')".toUTF8)
  if looksCompiled source then
    if mode.toList.contains 98 then
      .error ((if name.toList.head? == some 0x1B then "binary string".toUTF8
        else if name.toList.head? == some 61 || name.toList.head? == some 64 then name.extract 1 name.size
        else name) ++ ": bad binary format (truncated chunk)".toUTF8)
    else refused "binary"
  else if mode.toList.contains 116 then compile (shownName name) source
  else refused "text"

def pieceLimit : Nat := Nat.pow 2 31

def readPieces (f : Datum) (place : Option Place) (failed : Datum → Heap → Step)
    (k : ByteArray → Heap → Step) : Nat → ByteArray → Heap → Step
  | 0, _, h => .throw .memory h
  | fuel + 1, source, h =>
    .attempt f [] none h fun vs h =>
      match vs with
      | .bool true :: rest =>
        match rest.headD .nil with
        | .nil => k source h
        | d =>
          match d.toBytes? with
          | some s =>
            if s.isEmpty then k source h else readPieces f place failed k fuel (source ++ s) h
          | none =>
            failed (.string (mark place ++ "reader function must return a string".toUTF8)) h
      | _ => failed (vs.getD 1 .nil) h

def loadSource (mode name source : ByteArray) (globals : Option Datum) (h : Heap) : Step :=
  match compileAs mode name source with
  | .error message => build message (fun d h => .finish [.nil, d] h) h
  | .ok f =>
    match h.claim? functionSize with
    | none => .finish [.nil, Thrown.memory.datum] h
    | some h =>
      let (a, h) := h.addChunk (shownName name) f (globals.getD (.table h.globals))
      .finish [.function a] h

def load (args : List Datum) (caller : Caller) (wrong : Complaint → Heap → Step) (h : Heap) : Step :=
  let read : Checked (ByteArray × ByteArray × Option ByteArray) := do
    let mode ← bytesOr args 3 "bt".toUTF8
    match (arg args 1).toBytes? with
    | some s => return (mode, ← bytesOr args 2 s, some s)
    | none =>
      let name ← bytesOr args 2 "=(load)".toUTF8
      let _ ← function args 1
      return (mode, name, none)
  let globals := if isGiven args 4 then some (arg args 4) else none
  match read with
  | .error c => wrong c h
  | .ok (mode, name, source) =>
    let make (source : ByteArray) : Heap → Step :=
      loadSource (beforeZero mode) (beforeZero name) source globals
    match source with
    | some s => make s h
    | none =>
      readPieces (arg args 1) (caller.level 1) (fun message h => .finish [.nil, message] h) make
        pieceLimit ByteArray.empty h

end ScriptHost.Lua.Library
