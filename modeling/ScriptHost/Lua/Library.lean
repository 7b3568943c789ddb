import ScriptHost.Lua.Library.Base
import ScriptHost.Lua.Library.Chunk
import ScriptHost.Lua.Library.Coroutine
import ScriptHost.Lua.Library.Format
import ScriptHost.Lua.Library.Math
import ScriptHost.Lua.Library.Pack
import ScriptHost.Lua.Library.Pattern
import ScriptHost.Lua.Library.Random
import ScriptHost.Lua.Library.Table

/-!
# The standard library

The names of the library, what each function does, and the heap that a script starts with.  In the
sandbox there are no files, no processes and no packages; outside it their functions are there, but fail, as
does the one that writes compiled functions.
-/

set_option autoImplicit false

namespace ScriptHost.Lua

namespace Library

def unsupported (names : List String) : List (String × Builtin) :=
  names.map fun n => (n, .unsupported n)

def basic : List (String × Builtin) := [
  ("assert", .assert), ("collectgarbage", .collectGarbage), ("error", .error),
  ("getmetatable", .getMetatable), ("ipairs", .ipairs), ("load", .load), ("next", .next), ("pairs", .pairs),
  ("pcall", .pcall), ("print", .print), ("rawequal", .rawEqual), ("rawget", .rawGet),
  ("rawlen", .rawLength), ("rawset", .rawSet), ("select", .select), ("setmetatable", .setMetatable),
  ("tonumber", .toNumber), ("tostring", .toText), ("type", .type), ("warn", .warn),
  ("xpcall", .xpcall)]

def strings : List (String × Builtin) := [
  ("byte", .stringByte), ("char", .stringChar), ("dump", .unsupported "dump"), ("find", .stringFind),
  ("format", .stringFormat), ("gmatch", .stringMatches), ("gsub", .stringReplace), ("len", .stringLength),
  ("lower", .stringLower), ("match", .stringMatch), ("pack", .stringPack), ("packsize", .stringPackSize),
  ("rep", .stringRepeat), ("reverse", .stringReverse), ("sub", .stringSub), ("unpack", .stringUnpack),
  ("upper", .stringUpper)]

def tables : List (String × Builtin) := [
  ("concat", .tableConcat), ("insert", .tableInsert), ("move", .tableMove), ("pack", .tablePack),
  ("remove", .tableRemove), ("sort", .tableSort), ("unpack", .tableUnpack)]

def generatorCell : Nat := 0

def numbers : List (String × Builtin) := [
  ("abs", .mathAbs), ("acos", .mathFloat .acos), ("asin", .mathFloat .asin), ("atan", .mathAtan),
  ("ceil", .mathCeil), ("cos", .mathFloat .cos), ("cosh", .mathFloat .cosh), ("deg", .mathFloat .deg),
  ("exp", .mathFloat .exp), ("floor", .mathFloor), ("fmod", .mathFmod), ("frexp", .mathFrexp),
  ("ldexp", .mathLdexp), ("log", .mathLog), ("log10", .mathFloat .log10), ("max", .mathMax),
  ("min", .mathMin), ("modf", .mathModf), ("pow", .mathPow), ("rad", .mathFloat .rad),
  ("random", .mathRandom generatorCell), ("randomseed", .mathRandomSeed generatorCell),
  ("sin", .mathFloat .sin), ("sinh", .mathFloat .sinh), ("sqrt", .mathFloat .sqrt),
  ("tan", .mathFloat .tan), ("tanh", .mathFloat .tanh), ("tointeger", .mathToInteger),
  ("type", .mathType), ("ult", .mathUlt)]

def codePoints : List (String × Builtin) := [
  ("char", .utf8Char), ("codepoint", .utf8CodePoint), ("codes", .utf8Codes), ("len", .utf8Length),
  ("offset", .utf8Offset)]

def coroutines : List (String × Builtin) := [
  ("close", .coroutineClose), ("create", .coroutineCreate), ("isyieldable", .coroutineIsYieldable),
  ("resume", .coroutineResume), ("running", .coroutineRunning), ("status", .coroutineStatus),
  ("wrap", .coroutineWrap), ("yield", .coroutineYield)]

def modules : List (String × List (String × Builtin)) := [
  ("string", strings), ("table", tables), ("math", numbers), ("utf8", codePoints),
  ("coroutine", coroutines)]

def outsideBasic : List (String × Builtin) := unsupported ["dofile", "loadfile", "require"]

def outsideModules : List (String × List (String × Builtin)) := [
  ("io", unsupported ["close", "flush", "input", "lines", "open", "output", "popen", "read",
    "tmpfile", "type", "write"]),
  ("os", unsupported ["clock", "date", "difftime", "execute", "exit", "getenv", "remove", "rename",
    "setlocale", "time", "tmpname"]),
  ("package", unsupported ["loadlib", "searchpath"])]

def nameOf? (b : Builtin) (functions : List (String × Builtin)) : Option String :=
  (functions.find? fun e => e.2 == b).map (·.1)

end Library

def Builtin.ownName (b : Builtin) : String :=
  match Library.nameOf? b Library.basic with
  | some n => n
  | none =>
    match Library.modules.findSome? fun m =>
        (Library.nameOf? b m.2).map fun n => m.1 ++ "." ++ n with
    | some n => n
    | none => "?"

namespace Library

open Arguments

def extreme (greatest : Bool) : Datum → List Datum → Heap → Step
  | best, [], h => .finish [best] h
  | best, d :: rest, h =>
    if greatest then
      less false best d none (fun r h => extreme greatest (if r then d else best) rest h) h
    else less false d best none (fun r h => extreme greatest (if r then d else best) rest h) h

def run (b : Builtin) (args : List Datum) (caller : Caller) (h : Heap) : Step :=
  let wrong (c : Complaint) (h : Heap) : Step := c.throw b.ownName caller h
  let give (r : Checked (List Datum)) : Step :=
    match r with
    | .ok vs => .finish vs h
    | .error c => wrong c h
  let make (r : Checked (List Datum)) : Step :=
    match r with
    | .ok vs => deliver vs h
    | .error c => wrong c h
  match b with
  | .assert => Library.assert args caller wrong h
  | .collectGarbage => give (collectGarbage args)
  | .error => errorCall args caller wrong h
  | .getMetatable => give (getMetatable args h)
  | .ipairs =>
    give ((any args 1).map fun d => [h.libraryFunction .ipairsStep, d, .ofNat 0])
  | .load => Library.load args caller wrong h
  | .next =>
    match nextPair args h with
    | .ok (some vs) => .finish vs h
    | .ok none => raise none "invalid key to 'next'" h
    | .error c => wrong c h
  | .pairs => Library.pairs args (h.libraryFunction .next) wrong h
  | .pcall =>
    match args with
    | [] => raise none "not enough arguments to pcall" h
    | f :: rest => .attempt f rest none h fun vs h => .finish vs h
  | .print => describeAll args (fun h => .finish [] h) h
  | .rawEqual => give (rawEqual args)
  | .rawGet => give (rawGet args h)
  | .rawLength => give (rawLength args h)
  | .rawSet =>
    match rawSetArgs args with
    | .error c => wrong c h
    | .ok (a, key, value) => rawSet a key value none (fun h => .finish [.table a] h) h
  | .select => give (select args)
  | .setMetatable =>
    match setMetatable args h with
    | .error c => wrong c h
    | .ok (t, h) => .finish [t] h
  | .toNumber => give (toNumber args)
  | .toText =>
    match any args 1 with
    | .error c => wrong c h
    | .ok d => Lua.toText d (caller.level 1) (fun s h => build s (fun d h => .finish [d] h) h) h
  | .type => give (typeOf args)
  | .warn => give ((bytes args 1).map fun _ => [])
  | .xpcall =>
    match args with
    | f :: handler :: rest => .attempt f rest (some handler) h fun vs h => .finish vs h
    | _ => raise none "not enough arguments to xpcall" h
  | .ipairsStep => Library.ipairsStep args wrong h
  | .stringByte => give (stringByte args)
  | .stringChar => make (stringChar args)
  | .stringFind => make (stringFind true args)
  | .stringFormat => stringFormat args caller wrong h
  | .stringLength => give (onBytes (fun s => .ofNat s.size) args)
  | .stringLower => make (onBytes (fun s => .string (mapBytes lowerByte s)) args)
  | .stringMatch => make (stringFind false args)
  | .stringMatches => allMatches args wrong h
  | .matchesStep cell => matchesStep cell wrong h
  | .stringPack => make (stringPack args)
  | .stringPackSize => give (stringPackSize args)
  | .stringRepeat =>
    match repeatArgs args with
    | .ok (s, separator, n) => repeated s separator n h
    | .error c => wrong c h
  | .stringReplace => replaceAll args wrong h
  | .stringReverse => make (onBytes (fun s => .string s.toList.reverse.toByteArray) args)
  | .stringSub => make (stringSub args)
  | .stringUnpack => make (stringUnpack args)
  | .stringUpper => make (onBytes (fun s => .string (mapBytes upperByte s)) args)
  | .tableConcat => Library.concat args wrong h
  | .tableInsert => Library.insert args wrong h
  | .tableMove => Library.move args wrong h
  | .tablePack => Library.pack args h
  | .tableRemove => Library.remove args wrong h
  | .tableSort => Library.sort args wrong h
  | .tableUnpack => Library.unpack args wrong h
  | .mathAbs => give (absolute args)
  | .mathAtan => give (arcTangent args)
  | .mathCeil => give (rounding Binary64.ceil args)
  | .mathFloat f => give (applied f args)
  | .mathFloor => give (rounding Binary64.floor args)
  | .mathFmod => give (truncatedRemainder args)
  | .mathFrexp => give (fractionAndExponent args)
  | .mathLdexp => give (scaled args)
  | .mathLog => give (logarithm args)
  | .mathMax =>
    match args with
    | [] => wrong (.argument 1 "value expected") h
    | d :: rest => extreme true d rest h
  | .mathMin =>
    match args with
    | [] => wrong (.argument 1 "value expected") h
    | d :: rest => extreme false d rest h
  | .mathModf => give (wholeAndRest args)
  | .mathPow => give (power args)
  | .mathRandom cell => random cell args wrong h
  | .mathRandomSeed cell => randomSeed cell args wrong h
  | .mathToInteger => give (toInteger args)
  | .mathType => give (numberType args)
  | .mathUlt => give (unsignedLess args)
  | .utf8Char => make (utf8Char args)
  | .utf8CodePoint => give (utf8CodePoint args)
  | .utf8Codes => give (utf8Codes args fun strict => h.libraryFunction (.codesStep strict))
  | .codesStep strict => give (codesStep strict args)
  | .utf8Length => give (utf8Length args)
  | .utf8Offset => give (utf8Offset args)
  | .coroutineClose => closeCoroutine args caller wrong h
  | .coroutineCreate => createCoroutine args wrong (fun t h => .finish [.thread t] h) h
  | .coroutineIsYieldable => give (isYieldable args caller)
  | .coroutineResume => resumeCoroutine args caller wrong h
  | .coroutineRunning => .finish (runningThread caller) h
  | .coroutineStatus => coroutineStatus args caller wrong h
  | .coroutineWrap => wrapCoroutine args wrong h
  | .coroutineWrapped t => resumeWrapped t args caller h
  | .coroutineYield => yieldValues args caller h
  | .unsupported name => raise (caller.level 1) ("'" ++ name ++ "' is not supported") h

end Library

namespace Heap

open Library

def bare (allocator : Option Allocator) : Heap :=
  ⟨#[.sized 0 64, .empty], #[], #[], 0, 0, 1, allocator, 0, Nat.two_pos⟩

def addHidden (h : Heap) (functions : List Builtin) : Heap :=
  functions.foldl (fun h b => (h.addRoutine (.library b)).2) h

def addFunctions (h : Heap) (address : Nat) : List (String × Builtin) → Heap
  | [] => h
  | (name, b) :: rest =>
    let (a, h) := h.addRoutine (.library b)
    addFunctions (h.set address (.text name) (.function a)) address rest

def addModules (h : Heap) : List (String × List (String × Builtin)) → Heap
  | [] => h
  | (name, functions) :: rest =>
    let (a, h) := h.allocate (.sized 0 functions.length)
    addModules ((h.addFunctions a functions).set h.globals (.text name) (.table a)) rest

def extend (h : Heap) (module : String) (members : List (String × Datum)) : Heap :=
  match h.get h.globals (.text module) with
  | .table a => members.foldl (fun h e => h.set a (.text e.1) e.2) h
  | _ => h

def codePointPattern : ByteArray :=
  ([91, 0, 45, 127, 194, 45, 253, 93, 91, 128, 45, 191, 93, 42] : List UInt8).toByteArray

def settled (h : Heap) : Heap := { h with spent := h.footprint }

def start (sandbox : Bool) (allocator : Option Allocator) : Heap :=
  let h := bare allocator
  let h := h.addFunctions h.globals basic
  let h := h.addHidden [.ipairsStep, .codesStep true, .codesStep false]
  let h := (h.addCells (Generator.seeded 0 0).data).2
  let h := h.addThread.2
  let h := (h.set h.globals (.text "_G") (.table h.globals)).set h.globals (.text "_VERSION")
    (.text "Lua 5.4")
  let h := h.addModules modules
  let h := h.set h.strings (.text "__index") (h.get h.globals (.text "string"))
  let h := h.extend "math" [
    ("huge", .float .infinity), ("maxinteger", .int Int64.maxValue),
    ("mininteger", .int Int64.minValue), ("pi", .float .pi)]
  let h := h.extend "utf8" [("charpattern", .string codePointPattern)]
  if sandbox then h.settled
  else
    let h := (h.addFunctions h.globals outsideBasic).addModules outsideModules
    let h := h.extend "io"
      [("stderr", .userdata 0), ("stdin", .userdata 1), ("stdout", .userdata 2)]
    ({ h with serials := 3 } : Heap).settled

end Heap

end ScriptHost.Lua
