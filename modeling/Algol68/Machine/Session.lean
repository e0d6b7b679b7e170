import Algol68.Machine.Run
import Algol68.Fault.Diagnostic
/-!
Sessions.  A session runs units of one program in one machine, one action after another, and
reports the faults that end them.
-/

namespace Algol68

/-- The value a unit of the given mode left on the stack, which is `baseline` deep below it. -/
def Exec.result (mode : ModeId) (baseline : Nat) : Exec Value := do
  let v ← if mode = .void then pure .void else pop
  let size ← depth
  if size ≠ baseline then fail (.stackImbalance baseline size)
  return v

/-- How an action of a session ends. -/
inductive Outcome where
  | completed (v : Value)
  /-- A fault handed control to the monitor. -/
  | trapped (f : Fault)
  | failed (f : Fault)
  /-- The run did not end within the steps it was given. -/
  | unfinished

/-- A machine at work on a program, with the faults it reported. -/
structure Session where
  job : Job
  /-- The source text of the program, if it is at hand. -/
  source : Option String
  machine : Machine
  reported : List Diagnostic

namespace Session

/-- A number of steps that no run comes near. -/
def ample : Nat := 0x4000000000000000

def new (job : Job) (source : Option String) (keepsText : Bool) : Session :=
  ⟨job, source, .new job keepsText, []⟩

/-- Report a fault and clear what the action it ended had begun. -/
def abandon (s : Session) (m : Machine) (f : Fault) : Outcome × Session :=
  let m := { m with
    stack := m.stack.shrink s.machine.stack.size
    frames := m.frames.truncate s.machine.frames.depth
    calls := [] }
  (match s.job.config.mode with
    | .run => .failed f
    | .monitor => .trapped f,
    { s with machine := m, reported := s.reported ++ [.ofFault s.source f] })

/-- The fault a signal that no clause took ends in. -/
def lastFault (s : Session) : Signal → Fault
  | .fault f => f
  | .jump j => .of (.danglingJump (s.job.program.labelName j.target))

/-- Take stock of a run of a unit: the value it left, or the fault that ended it. -/
def conclude (s : Session) (unit : NodeId) : Halt → Outcome × Session
  | .completed m =>
    match Exec.result (s.job.program.tree.mode unit) s.machine.stack.size m with
    | .ok v m => (.completed v, { s with machine := m })
    | .error signal m => s.abandon m (s.lastFault signal)
  | .escaped signal m => s.abandon m (s.lastFault signal)
  | .unfinished _ m => (.unfinished, { s with machine := m })

/-- Run a unit, in at most `steps` steps. -/
def runUnit (s : Session) (steps : Nat) (unit : NodeId) : Outcome × Session :=
  s.conclude unit (drive s.job steps [.unit unit] s.machine)

/-- Run the whole program. -/
def run (s : Session) (steps : Nat) : Outcome × Session := s.runUnit steps s.job.program.root

/-- The session with nothing left of earlier actions but the values of the standard environ's
locals. -/
def atRest (s : Session) : Session :=
  { s with machine := { s.machine with
    frames := s.machine.frames.truncate 1
    stack := #[]
    calls := [] } }

/-- Run a unit in the standard environ. -/
def resume (s : Session) (steps : Nat) (unit : NodeId) : Outcome × Session :=
  s.atRest.runUnit steps unit

/-- Forget the text printed so far. -/
def clear (s : Session) : Session :=
  { s with machine := { s.machine with transput := s.machine.transput.clear } }

/-- A line about the state of the machine. -/
def summary (s : Session) : String :=
  s!"Genie \x7b mode: {s.job.config.mode.name}, stack_depth: {s.machine.stack.size}, " ++
  s!"frame_depth: {s.machine.frames.depth}, call_depth: {s.machine.calls.length}, .. \x7d"

end Session

end Algol68
