import Algol68.Machine.Task
import Algol68.Value.Parts
import Algol68.Value.Display
/-!
Integers gathered from units, and what they are gathered for: loops, generators, slices and the
functions on rows.
-/

namespace Algol68

/-- The bounds of a new row: a lower bound is one and an upper bound is zero by default. -/
def Bounds.ofParts : List (Option Int64) → List Bounds
  | lower :: upper :: rest => ⟨lower.getD 1, upper.getD 0⟩ :: ofParts rest
  | _ => []

/-- The indexers made of gathered integers: two for a trimmer, one for a subscript. -/
def Indexer.ofParts : List Bool → List (Option Int64) → List Indexer
  | true :: more, lower :: upper :: rest => .trim lower upper :: ofParts more rest
  | false :: more, index :: rest => .at (index.getD 0) :: ofParts more rest
  | _, _ => []

/-- The loop with the given start, step and limit.  A limit is by default the last integer in the
direction of the step. -/
def Iteration.ofParts (parts : LoopParts) (found : List (Option Int64)) : Iteration :=
  let part (k : Nat) : Option Int64 := (found[k]?).getD none
  let step := (part 1).getD 1
  { parts := parts
    step := step
    limit := (part 2).getD (if 0 ≤ step then Int64.maxValue else Int64.minValue)
    counter := (part 0).getD 1
    body := 0
    first := true }

namespace Exec

/-- Use gathered integers. -/
def conclude (job : Job) (found : List (Option Int64)) : Purpose → Exec Agenda
  | .loop parts => return [.enterLoop (.ofParts parts found)]
  | .generate target => do
    let contents ←
      lift (Value.initial job.program.modes job.config.objectLimit target (Bounds.ofParts found))
    push job (.name (← allocate contents))
    return []
  | .slice base trimmers => do
    let store := (← get).store
    match Value.slice store base (Indexer.ofParts trimmers found) with
    | .ok v =>
      push job v
      return []
    | .error f => throw (.fault (f.withNote "while slicing"))
  | .diagonal operand => return [.unit operand, .diagonal ((found.headD none).getD 0)]
  | .matrix operand column => return [.unit operand, .matrix ((found.headD none).getD 1) column]

/-- Go on gathering integers: evaluate the next unit that is present. -/
def gather (job : Job) (purpose : Purpose) :
    List (Option Int64) → List (Option NodeId) → Exec Agenda
  | found, [] => conclude job found purpose
  | found, none :: wanted => gather job purpose (found ++ [none]) wanted
  | found, some unit :: wanted => return [.unit unit, .take ⟨purpose, found, wanted⟩]

/-- Take a gathered integer from the stack. -/
def take (job : Job) (g : Gathering) : Exec Agenda := do
  let n ← popInt
  gather job g.purpose (g.found ++ [some n]) g.wanted

/-- The units of the bounds in a generator. -/
def boundUnits (tree : Tree) (bounds : List NodeId) : List (Option NodeId) :=
  bounds.flatMap fun b =>
    match tree.kind b with
    | .bound lower upper => [lower, upper]
    | _ => [none, some b]

/-- The units of the indexers in a slice, and which indexers are trimmers. -/
def indexerUnits (tree : Tree) (nodes : List NodeId) : List (Option NodeId) × List Bool :=
  (nodes.flatMap fun n =>
      match tree.kind n with
      | .trimmer lower upper => [lower, upper]
      | _ => [some n],
    nodes.map fun n =>
      match tree.kind n with
      | .trimmer .. => true
      | _ => false)

/-- Take the primary of a slice from the stack and gather its indexers. -/
def indexers (job : Job) (nodes : List NodeId) : Exec Agenda := do
  let base ← pop
  let (units, trimmers) := indexerUnits job.program.tree nodes
  gather job (.slice base trimmers) [] units

end Exec

end Algol68
