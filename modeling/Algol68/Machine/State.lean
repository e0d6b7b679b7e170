import Algol68.Machine.Annotation
import Algol68.Machine.Config
import Algol68.Machine.Frame
import Algol68.Program.Basic
import Algol68.Text.Blank
import Algol68.Value.Store
/-!
The state of the machine that runs a program, and the small operations its tasks are made of.  An
operation that does not complete says why and leaves the state as it was at that point.
-/

namespace Algol68

/-- What is run: a program, what its modes are equivalent to, and how. -/
structure Job where
  program : Program
  oracle : ModeOracle
  config : Config

/-- Where printed text goes. -/
structure Transput where
  /-- Whether printed text is kept. -/
  keeps : Bool
  text : String
  /-- The last character that was printed, kept or not. -/
  last : Option Char

namespace Transput

def emit (t : Transput) (text : String) : Transput where
  keeps := t.keeps
  text := if t.keeps then t.text ++ text else t.text
  last := text.toList.getLast?.or t.last

/-- A value printed after a space, unless nothing or a blank was printed just before. -/
def emitSeparated (t : Transput) (text : String) : Transput :=
  if t.last.any fun c => !Text.isBlank c then (t.emit " ").emit text else t.emit text

/-- Forget the text.  The last character is remembered. -/
def clear (t : Transput) : Transput := { t with text := "" }

end Transput

structure Machine where
  /-- The expression stack, its top last. -/
  stack : Array Value
  frames : FrameStack
  store : Store
  annotations : Annotations
  /-- The routines being run, the innermost first. -/
  calls : Trace
  transput : Transput
  /-- What was counted so far, if evaluation is counted. -/
  counters : Option Counters

/-- An operation of the machine. -/
abbrev Exec := EStateM Signal Machine

/-- Undefined values for the locals of a range. -/
def Program.freshLocals (p : Program) (scope : ScopeId) : Array Value :=
  (p.scopes.get scope).locals.map (Value.undefinedOf p.modes)

/-- A machine that has not run anything. -/
def Machine.new (job : Job) (keepsText : Bool) : Machine where
  stack := #[]
  frames := .standard (job.program.freshLocals .standard)
  store := .empty
  annotations := .new job.program.tree.size
  calls := []
  transput := ⟨keepsText, "", none⟩
  counters := if job.config.profile then some .zero else none

namespace Exec

variable {α : Type}

def lift : Checked α → Exec α
  | .ok a => pure a
  | .error f => throw (.fault f)

def fail (c : Cause) : Exec α := throw (.fault (.of c))

/-- The number of values on the expression stack. -/
def depth : Exec Nat := return (← get).stack.size

def push (job : Job) (v : Value) : Exec Unit := do
  if job.config.stackLimit ≤ (← get).stack.size then
    fail (.expressionStackOverflow job.config.stackLimit)
  modify fun m => { m with stack := m.stack.push v }

def pop : Exec Value := do
  match (← get).stack.back? with
  | some v =>
    modify fun m => { m with stack := m.stack.pop }
    return v
  | none => fail .stackUnderflow

/-- The top `n` values, in the order they were pushed. -/
def popMany (n : Nat) : Exec (List Value) := do
  let size := (← get).stack.size
  if size < n then fail .stackUnderflow
  let values := ((← get).stack.extract (size - n) size).toList
  modify fun m => { m with stack := m.stack.shrink (size - n) }
  return values

/-- Drop what lies above `baseline` on the expression stack. -/
def cut (baseline : Nat) : Exec Unit :=
  modify fun m => { m with stack := m.stack.shrink baseline }

def popInt : Exec Int64 := do lift (← pop).asInt

def popBool : Exec Bool := do lift (← pop).asBool

/-- A row from the stack, or the row that a name from the stack refers to. -/
def popRow : Exec (Row Value) := do
  match ← pop with
  | .name n =>
    let store := (← get).store
    lift do (← store.get n).asRow
  | v => lift v.asRow

/-- The undefined value of a mode; nothing for `VOID`. -/
def pushUndefined (job : Job) (mode : ModeId) : Exec Unit :=
  if mode = .void then return
  else push job (Value.undefinedOf job.program.modes mode)

/-- Open a frame for a range, its static link given, and tell the depth before it. -/
def enterAt (job : Job) (scope : ScopeId) (link : Nat) : Exec Nat := do
  lift ((← get).frames.checkRoom job.config.frameLimit)
  let depth := (← get).frames.depth
  modify fun m => { m with
    frames := m.frames.push scope (job.program.scopes.get scope).level (some link)
      (job.program.freshLocals scope) }
  return depth

/-- Open a frame for a range inside the innermost one, and tell the depth before it. -/
def enter (job : Job) (scope : ScopeId) : Exec Nat := do
  enterAt job scope (← lift (← get).frames.top)

/-- Close frames until `depth` remain. -/
def leave (depth : Nat) : Exec Unit :=
  modify fun m => { m with frames := m.frames.truncate depth }

/-- Make the locals of a frame undefined again. -/
def resetLocals (job : Job) (index : Nat) : Exec Unit :=
  modify fun m => { m with
    frames := m.frames.modify index fun frame =>
      { frame with
        locals := frame.locals.mapIdx fun k v =>
          match (job.program.scopes.get frame.scope).locals[k]? with
          | some mode => Value.undefinedOf job.program.modes mode
          | none => v } }

def load (slot : Slot) : Exec Value := do lift ((← get).frames.load slot)

def store (slot : Slot) (v : Value) : Exec Unit := do
  let index ← lift ((← get).frames.holder slot v)
  modify fun m => { m with frames := m.frames.setLocal index slot.offset v }

/-- A new location. -/
def allocate (v : Value) : Exec Name :=
  modifyGet fun m =>
    let (name, store) := m.store.allocate v
    (name, { m with store := store })

def read (n : Name) : Exec Value := do lift ((← get).store.get n)

def assign (n : Name) (v : Value) : Exec Unit := do
  let contents ← lift ((← get).store.assigned n v)
  modify fun m => { m with store := m.store.put n.cell contents }

def count (f : Counters → Counters) : Exec Unit :=
  modify fun m => { m with counters := m.counters.map f }

def annotate (f : Annotations → Annotations) : Exec Unit :=
  modify fun m => { m with annotations := f m.annotations }

def transput (f : Transput → Transput) : Exec Unit :=
  modify fun m => { m with transput := f m.transput }

end Exec

end Algol68
