import Algol68.Machine.Task
/-!
Calls of routines and of the standard procedures.
-/

namespace Algol68

namespace Exec

/-- Print the first of several values; the parts of a value without a text of its own are printed
in its place. -/
def print (job : Job) : List Value → Exec Agenda
  | [] => return []
  | v :: rest =>
    match v with
    | .row r => return [.print (r.elements.toList ++ rest)]
    | .struct fields => return [.print (fields.toList ++ rest)]
    | .union _ payload => return [.print (payload :: rest)]
    | .name n => do return [.print ((← read n) :: rest)]
    | .procedure (.standard .newline) => do
      transput (·.emit "\n")
      return [.print rest]
    | .procedure (.standard .print) => return [.print rest]
    | .procedure (.routine ..) => lift (Value.mismatch "printable value" v)
    | .undefined m => fail (.undefinedValue (job.program.modes.describe m))
    | .int _ | .real _ | .bool _ => do
      transput (·.emitSeparated v.leafText)
      return [.print rest]
    | .void | .char _ | .string _ | .format _ | .nil => do
      transput (·.emit v.leafText)
      return [.print rest]

/-- Call a standard procedure. -/
def callStandard (args : List Value) : StandardProcedure → Exec Agenda
  | .print => return [.print args]
  | .newline => do
    transput (·.emit "\n")
    return []

/-- Call a routine.  The activation of its environ must still be there. -/
def callRoutine (job : Job) (text : NodeId) (environ : FrameHandle) (args : List Value)
    (site : NodeId) : Exec Agenda := do
  if !(← get).frames.isLive environ then fail .scopeViolation
  match job.program.tree.kind text with
  | .routineText scope _ body =>
    count fun c => { c with calls := c.calls + 1 }
    modify fun m => { m with calls := ⟨some text, job.program.tree.span site⟩ :: m.calls }
    return [.enterRoutine scope environ.index args body, .endCall]
  | kind => fail (.unknownNodeKind kind.name)

/-- Call a procedure. -/
def callValue (job : Job) (callee : Value) (args : List Value) (site : NodeId) : Exec Agenda :=
  match callee with
  | .procedure (.standard p) => callStandard args p
  | .procedure (.routine text environ) => callRoutine job text environ args site
  | .nil => fail .nilAccess
  | .undefined m => fail (.undefinedValue (job.program.modes.describe m))
  | v => lift (Value.mismatch "PROC" v)

/-- Open the frame of a routine inside its environ.  The first locals are the arguments. -/
def enterRoutine (job : Job) (scope : ScopeId) (environ : Nat) (args : List Value)
    (body : NodeId) : Exec Agenda := do
  let before ← enterAt job scope environ
  modify fun m => { m with
    frames := m.frames.modify before fun frame =>
      { frame with locals := frame.locals.mapIdx fun k v => args.getD k v } }
  return [.unit body, .leave before]

/-- A routine was run. -/
def endCall : Exec Unit := modify fun m => { m with calls := m.calls.tail }

/-- Take a procedure from the stack and evaluate its arguments. -/
def arguments (args : List NodeId) (site : NodeId) : Exec Agenda := do
  let callee ← pop
  return args.map .unit ++ [.call callee args.length site]

/-- Call the procedure of a user's operator. -/
def operate (job : Job) (slot : Slot) (arity : Nat) (site : NodeId) : Exec Agenda := do
  let operands ← popMany arity
  callValue job (← load slot) operands site

end Exec

end Algol68
