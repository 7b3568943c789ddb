/-!
# The script log

The log keeps the lines scripts wrote last, as many as its capacity, and at least one.
-/

set_option autoImplicit false

namespace ScriptHost

structure ScriptLog where
  capacity : Nat
  -- the oldest line first
  lines : List String
deriving DecidableEq, Inhabited, Repr

namespace ScriptLog

def ofCapacity (capacity : Nat) : ScriptLog := ⟨max capacity 1, []⟩

def size (log : ScriptLog) : Nat := log.lines.length

def isEmpty (log : ScriptLog) : Bool := log.lines.isEmpty

def push (log : ScriptLog) (line : String) : ScriptLog :=
  -- the oldest line goes when the log is full
  let kept := if log.size = log.capacity then log.lines.drop 1 else log.lines
  { log with lines := kept ++ [line] }

def clear (log : ScriptLog) : ScriptLog := { log with lines := [] }

def drain (log : ScriptLog) : List String × ScriptLog := (log.lines, log.clear)

end ScriptLog

end ScriptHost
