import Algol68.Machine.Task
/-!
Loop clauses.  An iteration tests the bounds, then runs the `while`, `do` and `until` parts in a
frame that all iterations share, and steps the counter.
-/

namespace Algol68

namespace Exec

/-- Open the frame of a loop's counter. -/
def enterLoop (job : Job) (i : Iteration) : Exec Agenda := do
  let before ← enter job i.parts.scope
  return [.enterBody i, .leave before]

/-- Open the frame of a loop's body. -/
def enterBody (job : Job) (i : Iteration) : Exec Agenda := do
  let before ← enter job i.parts.bodyScope
  return [.iterate { i with body := before }, .leave before]

/-- Give the counter of a loop, if it is named, its value. -/
def setCounter (i : Iteration) : Exec Unit :=
  match i.parts.counter with
  | some slot => store slot (.int i.counter)
  | none => return

/-- Every iteration after the first finds the locals of the body undefined again. -/
def renewBody (job : Job) (i : Iteration) : Exec Unit :=
  if i.first then return else resetLocals job i.body

/-- Start an iteration if the counter is inside the bounds. -/
def iterate (job : Job) (i : Iteration) : Exec Agenda := do
  if i.admits then
    setCounter i
    renewBody job i
    return match i.parts.whilePart with
      | some enquiry => [.clause enquiry true, .afterWhile { i with first := false }]
      | none => iteration { i with first := false }
  else return []
where
  /-- The tasks of an iteration whose `while` part allowed it. -/
  iteration (i : Iteration) : Agenda :=
    .clause i.parts.doPart false ::
      match i.parts.untilPart with
      | some enquiry => [.clause enquiry true, .afterUntil i]
      | none => [.advance i]

/-- Go on with an iteration if its `while` part yielded true. -/
def afterWhile (i : Iteration) : Exec Agenda := do
  return if ← popBool then iterate.iteration i else []

/-- Go on after an iteration if its `until` part yielded false. -/
def afterUntil (i : Iteration) : Exec Agenda := do
  return if ← popBool then [] else [.advance i]

/-- Step the counter, if the loop steps it, and start the next iteration. -/
def advance (i : Iteration) : Exec Agenda := do
  if i.parts.steps then
    match narrow? (i.counter.toInt + i.step.toInt) with
    | some counter => return [.iterate { i with counter := counter }]
    | none => fail (.integerOverflow "loop counter")
  else return [.iterate i]

end Exec

end Algol68
