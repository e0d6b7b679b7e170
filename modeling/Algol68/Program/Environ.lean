import Algol68.Program.Tree
/-!
The environ of a routine text: the deepest range that holds one of its non-local names.  A routine
value lives as long as that range is active; a routine without non-locals belongs to the standard
environ.
-/

namespace Algol68

namespace Operator

def slots : Operator → List Slot
  | .standard _ => []
  | .user slot => [slot]

end Operator

namespace Tree

/-- The levels of the ranges that a node of this kind itself refers to. -/
def levels (scopes : ScopeTable) (labels : LabelTable) : NodeKind → List Nat
  | .identifier slot => [slot.level]
  | .formula op _ _ | .monadic op _ => op.slots.map Slot.level
  | .jump label => [(scopes.get (labels.get label).scope).level]
  | _ => []

/-- The deepest level below `own` that a node or one of its descendants refers to, descendants
nested less than `depth` deep. -/
def youngestAt (t : Tree) (scopes : ScopeTable) (labels : LabelTable) (own : Nat) :
    (depth : Nat) → NodeId → Nat
  | 0, _ => 0
  | depth + 1, n =>
    let outer := (levels scopes labels (t.kind n)).filter (· < own)
    let below := (t.children (t.kind n)).map (t.youngestAt scopes labels own depth)
    (outer ++ below).foldl max 0

/-- The level of the environ of a routine text; zero for any other node. -/
def environLevel (t : Tree) (scopes : ScopeTable) (labels : LabelTable) (n : NodeId) : Nat :=
  match t.kind n with
  | .routineText scope _ body =>
    t.youngestAt scopes labels (scopes.get scope).level t.size body
  | _ => 0

end Tree

end Algol68
