import Algol68.Machine.State
/-!
The work the machine still has to do.  A task is done in one step, which may put further tasks in
its place; the list of all tasks left is the agenda.  Tasks that only matter when a fault or a jump
passes them stand below the work they watch over.
-/

namespace Algol68

/-- A labelled clause that is running. -/
structure LabelledClause where
  serial : NodeId
  items : List NodeId
  /-- The place of the frame it runs in, and the serial number of that activation. -/
  frame : Nat
  activation : Nat
  /-- The depth of the expression stack when it was entered. -/
  baseline : Nat
  deriving DecidableEq, Inhabited

/-- A loop clause that is running. -/
structure Iteration where
  parts : LoopParts
  step : Int64
  limit : Int64
  counter : Int64
  /-- The place of the frame shared by the `while`, `do` and `until` parts. -/
  body : Nat
  first : Bool
  deriving DecidableEq, Inhabited

namespace Iteration

/-- Whether the counter is inside the bounds of the loop. -/
def admits (i : Iteration) : Bool :=
  if 0 < i.step then i.counter ≤ i.limit
  else if i.step < 0 then i.limit ≤ i.counter
  else true

end Iteration

/-- What a list of integers is gathered for. -/
inductive Purpose where
  /-- The start, step and limit of a loop. -/
  | loop (parts : LoopParts)
  /-- The bounds of a new row, lower and upper for each dimension. -/
  | generate (target : ModeId)
  /-- The indexers of a slice; the list says which of them are trimmers. -/
  | slice (base : Value) (trimmers : List Bool)
  /-- The offset of a diagonal. -/
  | diagonal (operand : NodeId)
  /-- The index of the new dimension of a row or column function. -/
  | matrix (operand : NodeId) (column : Bool)

/-- Integers gathered from units, some of which may be absent. -/
structure Gathering where
  purpose : Purpose
  found : List (Option Int64)
  wanted : List (Option NodeId)

inductive Task where
  /-- Evaluate a unit. -/
  | unit (node : NodeId)
  /-- Evaluate a unit by its kind. -/
  | elaborate (node : NodeId)
  /-- A unit was evaluated for the first time: record how to evaluate it. -/
  | settle (node : NodeId)
  /-- A unit was evaluated again. -/
  | within (node : NodeId)
  /-- A clause must have left exactly its value above `baseline`. -/
  | yields (mode : ModeId) (baseline : Nat)
  /-- Drop what lies above `baseline` on the expression stack. -/
  | cut (baseline : Nat)
  /-- Close frames until `depth` remain. -/
  | leave (depth : Nat)
  /-- Run a serial clause, or an enquiry clause, whose value is kept. -/
  | clause (node : NodeId) (enquiry : Bool)
  /-- A labelled clause ends here, unless a jump resumes it. -/
  | labelled (c : LabelledClause)
  /-- Choose by a truth value. -/
  | branch (thenPart : NodeId) (elsePart : Option NodeId) (mode : ModeId)
  /-- Choose by an integer. -/
  | choose (alternatives : List NodeId) (outPart : Option NodeId) (mode : ModeId)
  /-- Choose by the mode of a united value. -/
  | conform (alternatives : List NodeId) (outPart : Option NodeId) (mode : ModeId)
  /-- Give a local a value. -/
  | store (slot : Slot) (value : Value)
  /-- Give a local the value on the stack. -/
  | bind (slot : Slot)
  /-- Give a local the name on the stack, then assign its initial value. -/
  | declare (slot : Slot) (init : Option NodeId)
  /-- Assign the value on the stack to a name. -/
  | initialise (name : Name)
  /-- Assign the value on the stack to the name below it, which stays. -/
  | assign
  /-- Take an integer from the stack. -/
  | take (g : Gathering)
  /-- Open the frame of a loop's counter. -/
  | enterLoop (i : Iteration)
  /-- Open the frame of a loop's body. -/
  | enterBody (i : Iteration)
  /-- Start an iteration, if the bounds allow it. -/
  | iterate (i : Iteration)
  /-- Go on with an iteration if its `while` part allows it. -/
  | afterWhile (i : Iteration)
  /-- Go on after an iteration unless its `until` part forbids it. -/
  | afterUntil (i : Iteration)
  /-- Step the counter of a loop. -/
  | advance (i : Iteration)
  /-- Evaluate the arguments for the procedure on the stack. -/
  | arguments (args : List NodeId) (site : NodeId)
  /-- Call a procedure with the topmost values on the stack. -/
  | call (callee : Value) (count : Nat) (site : NodeId)
  /-- Call the procedure of a user's operator with the topmost values on the stack. -/
  | operate (slot : Slot) (count : Nat) (site : NodeId)
  /-- Open the frame of a routine and run its body. -/
  | enterRoutine (scope : ScopeId) (environ : Nat) (args : List Value) (body : NodeId)
  /-- A routine was run. -/
  | endCall
  /-- Print values one after the other. -/
  | print (values : List Value)
  | dyadic (op : StandardOperator)
  | monadic (op : StandardOperator)
  /-- Take the primary of a slice from the stack and gather its indexers. -/
  | indexers (nodes : List NodeId)
  | select (field : Nat)
  | identity (positive : Bool)
  | coerce (kind : CoercionKind) (node operand : NodeId) (baseline : Nat)
  /-- Evaluate the right operand unless the left one decides. -/
  | shortCircuit (right : NodeId) (conjunction : Bool)
  | assert
  | diagonal (offset : Int64)
  | matrix (index : Int64) (column : Bool)
  | transpose
  /-- Make a display of the values above `baseline`. -/
  | aggregate (mode : ModeId) (baseline : Nat)

abbrev Agenda := List Task

/-- The task of a step of a clause entered at `baseline`. -/
def ChainStep.task (baseline : Nat) : ChainStep → Task
  | .unit n => .unit n
  | .boundary => .cut baseline

end Algol68
