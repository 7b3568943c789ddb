import ScriptHost.Bridge.Install
import ScriptHost.Bridge.Call
import ScriptHost.Ui.Node

/-!
# Running user-interface scripts

A run unpins the callbacks of the tree before, installs the standard globals if they are missing and
reads the script's value as a tree.  Failures become diagnostics that name the chunk.  Of the functions
in the value only those in the tree stay pinned.
-/

set_option autoImplicit false

namespace ScriptHost

inductive Preview where
  | tree (n : UiNode)
  | empty
  | failed (d : Diagnostic)

namespace Bridge

def treeOf (b : Bridge) (v : Value) : Except ScriptError (Option UiNode) × Bridge :=
  let tree := UiNode.ofValue v
  let kept := match tree with
    | .ok (some n) => n.handles
    | _ => []
  (tree, b.dropAll (v.handles.filter fun handle => !kept.contains handle))

def evaluateUi (host : Host) (fuel : Nat) (b : Bridge) (source chunk : String) :
    Answer (Option UiNode) :=
  let (_, b) := b.release
  (b.install host fuel).next fun b _ =>
    (b.executeNamed host fuel source chunk).next fun b v => some (b.treeOf v)

def diagnosed {α : Type} (chunk : String) (a : Answer α) :
    Option (Except Diagnostic α × Bridge) :=
  a.map fun r => (match r.1 with
    | .ok v => .ok v
    | .error e => .error (.ofError e chunk), r.2)

def runUiNamed (host : Host) (fuel : Nat) (b : Bridge) (source chunk : String) :
    Option (Except Diagnostic (Option UiNode) × Bridge) :=
  diagnosed chunk (b.evaluateUi host fuel source chunk)

def runUi (host : Host) (fuel : Nat) (b : Bridge) (source : String) :
    Option (Except Diagnostic (Option UiNode) × Bridge) :=
  b.runUiNamed host fuel source b.config.chunkName

def preview (host : Host) (fuel : Nat) (b : Bridge) (source : String) : Option (Preview × Bridge) :=
  (b.runUi host fuel source).map fun r => (match r.1 with
    | .ok (some n) => .tree n
    | .ok none => .empty
    | .error d => .failed d, r.2)

def dispatch (host : Host) (fuel : Nat) (b : Bridge) (elsewhere : Handle → Bool) (handle : Handle)
    (args : List Value) : Option (Except Diagnostic Value × Bridge) :=
  diagnosed b.config.chunkName (b.invoke host fuel elsewhere handle args)

def evaluate (host : Host) (fuel : Nat) (b : Bridge) (source : String) : Answer String :=
  (b.execute host fuel source).next fun b v => (b.dropAll v.handles).answer (.ok v.render)

end Bridge

end ScriptHost
