import Algol68.Program.Tree
/-!
Complete programs.
-/

namespace Algol68

/-- A complete program. -/
structure Program where
  tree : Tree
  modes : ModeTable
  scopes : ScopeTable
  labels : LabelTable
  interner : Interner
  /-- The clause the program consists of. -/
  root : NodeId
  /-- The environ level of each node that is a routine text, zero at other nodes. -/
  environs : Array Nat

namespace Program

def environLevel (p : Program) (routine : NodeId) : Nat := p.environs.getD routine.index 0

/-- The name of the label before a labelled unit. -/
def labelName (p : Program) (target : Option NodeId) : String :=
  match target.map p.tree.kind with
  | some (.labeled label _) => p.interner.lookup (p.labels.get label).name
  | _ => "?"

end Program

end Algol68
