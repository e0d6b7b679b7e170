import Algol68.Machine.Unit
/-!
Runs.  Tasks are done one after the other; a fault or a jump is carried down the agenda to the task
that takes it, if any.
-/

namespace Algol68

/-- Where a signal ends up. -/
inductive Unwound where
  /-- A labelled clause goes on at the label. -/
  | resumed (agenda : Agenda) (m : Machine)
  /-- Nothing on the agenda takes it. -/
  | escaped (s : Signal) (m : Machine)

/-- Go on with a labelled clause at the target of a jump. -/
def LabelledClause.resume (job : Job) (c : LabelledClause) (target : Option NodeId) :
    Checked Agenda :=
  match target with
  | none => fault (.danglingJump "?")
  | some unit =>
    let w := job.program.tree.walk (some unit) c.items
    if w.pending.isSome then fault (.danglingJump (job.program.labelName w.pending))
    else .ok (w.steps.map (·.task c.baseline) ++ [.labelled c])

/-- Carry a signal down the agenda.  A fault takes its position from the first unit it leaves; a
jump is taken by the running clause that owns its label. -/
def unwind (job : Job) : Signal → Agenda → Machine → Unwound
  | s, [], m => .escaped s m
  | s, task :: rest, m =>
    match s, task with
    | .fault f, .settle node | .fault f, .within node =>
      unwind job (.fault (f.locate (job.program.tree.span node) m.calls)) rest m
    | .jump j, .labelled c =>
      if j.owner = c.serial ∧ j.frame = c.activation then
        let m := { m with
          counters := m.counters.map fun n => { n with jumps := n.jumps + 1 }
          frames := m.frames.truncate (c.frame + 1)
          stack := m.stack.shrink j.baseline }
        match c.resume job j.target with
        | .ok work => .resumed (work ++ rest) m
        | .error f => unwind job (.fault f) rest m
      else unwind job s rest m
    | _, .leave depth => unwind job s rest { m with frames := m.frames.truncate depth }
    | _, .endCall => unwind job s rest { m with calls := m.calls.tail }
    | _, _ => unwind job s rest m

/-- How a run of the machine ends. -/
inductive Halt where
  | completed (m : Machine)
  | escaped (s : Signal) (m : Machine)
  /-- Tasks are left after the given number of steps. -/
  | unfinished (agenda : Agenda) (m : Machine)

/-- Do the tasks of an agenda, in at most `steps` steps. -/
def drive (job : Job) : (steps : Nat) → Agenda → Machine → Halt
  | _, [], m => .completed m
  | 0, agenda, m => .unfinished agenda m
  | steps + 1, task :: rest, m =>
    match task.exec job m with
    | .ok work m => drive job steps (work ++ rest) m
    | .error s m =>
      match unwind job s rest m with
      | .resumed agenda m => drive job steps agenda m
      | .escaped s m => .escaped s m

end Algol68
