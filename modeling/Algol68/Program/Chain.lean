import Algol68.Program.Tree
/-!
The order in which a clause runs its items.  `flatten` is the linear chain of a clause without
labels; `walk` is what is left to run of a labelled clause, from its start or from one of its
labelled units.  Groups, declaration lists and inner serial clauses are transparent to both.
-/

namespace Algol68

/-- A step of a chain. -/
inductive ChainStep where
  /-- A unit or declaration to evaluate. -/
  | unit (node : NodeId)
  /-- A statement boundary: what the statement left on the stack is dropped. -/
  | boundary
  deriving DecidableEq, Inhabited

/-- The units of a chain. -/
def ChainStep.units (steps : List ChainStep) : List NodeId :=
  steps.filterMap fun
    | .unit n => some n
    | .boundary => none

/-- Steps in order, and whether control reaches the end of them. -/
structure Chain where
  steps : List ChainStep
  reachesEnd : Bool
  deriving DecidableEq, Inhabited

namespace Chain

def one (s : ChainStep) : Chain := ⟨[s], true⟩

def empty : Chain := ⟨[], true⟩

/-- The chains of the items one after the other, up to the first that does not reach its end. -/
def concat (chain : NodeId → Chain) : List NodeId → Chain
  | [] => empty
  | item :: rest =>
    let first := chain item
    if first.reachesEnd then
      let second := concat chain rest
      ⟨first.steps ++ second.steps, second.reachesEnd⟩
    else first

end Chain

namespace Tree

/-- The chain of one item, its inlined items nested less than `depth` deep. -/
def flattenItem (t : Tree) : (depth : Nat) → NodeId → Chain
  | 0, _ => .empty
  | depth + 1, item =>
    match t.kind item with
    | .group items | .declarationList items | .serialClause _ items =>
      Chain.concat (t.flattenItem depth) (t.list items)
    | .separator => .one .boundary
    | .punct => .empty
    | .exit => ⟨[], false⟩
    | .labeled _ unit => .one (.unit unit)
    | _ => .one (.unit item)

/-- The linear chain of a list of items.  Nodes refer to earlier nodes, so nesting is at most the
number of nodes. -/
def flatten (t : Tree) (items : List NodeId) : List ChainStep :=
  (Chain.concat (t.flattenItem t.size) items).steps

end Tree

/-- Steps in order, the labelled unit still looked for after them, and whether control reaches
the end of them. -/
structure Walk where
  steps : List ChainStep
  pending : Option NodeId
  reachesEnd : Bool
  deriving DecidableEq, Inhabited

namespace Walk

/-- Nothing to do. -/
def idle (pending : Option NodeId) : Walk := ⟨[], pending, true⟩

/-- One step, skipped while a labelled unit is looked for. -/
def one (s : ChainStep) (pending : Option NodeId) : Walk :=
  if pending.isNone then ⟨[s], none, true⟩ else idle pending

/-- The walks over the items one after the other, up to the first that does not reach its end. -/
def concat (walk : Option NodeId → NodeId → Walk) : Option NodeId → List NodeId → Walk
  | pending, [] => idle pending
  | pending, item :: rest =>
    let first := walk pending item
    if first.reachesEnd then
      let second := concat walk first.pending rest
      { second with steps := first.steps ++ second.steps }
    else first

end Walk

namespace Tree

/-- The walk over one item, its inlined items nested less than `depth` deep. -/
def walkItem (t : Tree) : (depth : Nat) → Option NodeId → NodeId → Walk
  | 0, pending, _ => .idle pending
  | depth + 1, pending, item =>
    match t.kind item with
    | .group items | .declarationList items | .serialClause _ items =>
      Walk.concat (t.walkItem depth) pending (t.list items)
    | .separator => .one .boundary pending
    | .punct => .idle pending
    | .exit => ⟨[], pending, pending.isSome⟩
    | .labeled _ unit => .one (.unit unit) (if pending = some item then none else pending)
    | _ => .one (.unit item) pending

/-- The walk over the items of a labelled clause.  While `pending` names a labelled unit, items
are skipped until it is reached. -/
def walk (t : Tree) (pending : Option NodeId) (items : List NodeId) : Walk :=
  Walk.concat (t.walkItem t.size) pending items

/-- The labels of the labelled units that stand among the items, in groups or in inner serial
clauses.  Declaration lists are not looked into. -/
def labelsOfItem (t : Tree) : (depth : Nat) → NodeId → List LabelId
  | 0, _ => []
  | depth + 1, item =>
    match t.kind item with
    | .labeled label _ => [label]
    | .group items | .serialClause _ items => (t.list items).flatMap (t.labelsOfItem depth)
    | _ => []

def labelsOf (t : Tree) (items : List NodeId) : List LabelId :=
  items.flatMap (t.labelsOfItem t.size)

end Tree

end Algol68
