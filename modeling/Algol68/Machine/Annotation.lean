import Algol68.Program.Chain
/-!
What the machine learns about a node the first time it runs it: the chain of a clause, and how the
node is to be evaluated from then on.  Both are written once and never changed.
-/

namespace Algol68

/-- How far the chain of a node is known, and what is known about it. -/
structure Flags where
  /-- The chain is being made. -/
  linearizing : Bool
  /-- The chain is known. -/
  linearized : Bool
  /-- The range of the clause declares no labels. -/
  labelFree : Bool
  /-- The chain is exactly one unit. -/
  singleStep : Bool
  deriving DecidableEq, Inhabited

namespace Flags

def none : Flags := ⟨false, false, false, false⟩

/-- The flags set in either. -/
def union (f g : Flags) : Flags where
  linearizing := f.linearizing || g.linearizing
  linearized := f.linearized || g.linearized
  labelFree := f.labelFree || g.labelFree
  singleStep := f.singleStep || g.singleStep

/-- The names of the flags that are set. -/
def names (f : Flags) : List String :=
  [(f.linearizing, "LINEARIZING"), (f.linearized, "LINEARIZED"), (f.labelFree, "LABEL_FREE"),
    (f.singleStep, "SINGLE_STEP")].filterMap fun (set, name) => if set then some name else .none

end Flags

inductive StrategyKind where
  /-- Evaluate the source by its kind. -/
  | unit
  | closed
  | conditional
  | integerCase
  | conformityCase
  | loop
  | collateral
  | parallel
  deriving DecidableEq, Inhabited

def StrategyKind.name : StrategyKind → String
  | .unit => "Unit"
  | .closed => "Closed"
  | .conditional => "Conditional"
  | .integerCase => "IntegerCase"
  | .conformityCase => "ConformityCase"
  | .loop => "Loop"
  | .collateral => "Collateral"
  | .parallel => "Parallel"

/-- How a node is evaluated.  The source is the node itself, or the single unit that a closed
clause consists of. -/
structure Strategy where
  kind : StrategyKind
  source : NodeId
  deriving DecidableEq, Inhabited

structure Annotation where
  flags : Flags
  chain : Option (List ChainStep)
  strategy : Option Strategy
  deriving DecidableEq, Inhabited

def Annotation.blank : Annotation := ⟨.none, none, none⟩

/-- The annotations of the nodes of one tree. -/
structure Annotations where
  entries : Array Annotation

namespace Annotations

def new (nodes : Nat) : Annotations := ⟨Array.replicate nodes .blank⟩

def size (a : Annotations) : Nat := a.entries.size

def isEmpty (a : Annotations) : Bool := a.entries.isEmpty

def entry (a : Annotations) (n : NodeId) : Annotation := a.entries.getD n.index .blank

def flags (a : Annotations) (n : NodeId) : Flags := (a.entry n).flags

def chain (a : Annotations) (n : NodeId) : Option (List ChainStep) := (a.entry n).chain

def strategy (a : Annotations) (n : NodeId) : Option Strategy := (a.entry n).strategy

/-- Start on the chain of a node.  The answer says whether it was not yet started. -/
def beginLinearizing (a : Annotations) (n : NodeId) : Bool × Annotations :=
  let f := a.flags n
  if f.linearized || f.linearizing then (false, a)
  else
    (true, ⟨a.entries.modify n.index fun e =>
      { e with flags := { e.flags with linearizing := true } }⟩)

/-- The flags of a node whose chain has become known. -/
def chainFlags (f : Flags) (chain : List ChainStep) (extra : Flags) : Flags :=
  let single :=
    match chain with
    | [.unit _] => true
    | _ => false
  { f with linearizing := false }.union ({ extra with linearized := true }.union
    { Flags.none with singleStep := single })

/-- Record the chain of a node.  The answer is the chain that is recorded: the one recorded
before, if there was one. -/
def finishLinearizing (a : Annotations) (n : NodeId) (chain : List ChainStep) (extra : Flags) :
    List ChainStep × Annotations :=
  match a.chain n with
  | some known => (known, a)
  | none =>
    (chain, ⟨a.entries.modify n.index fun e =>
      { e with flags := chainFlags e.flags chain extra, chain := some chain }⟩)

/-- Record the strategy of a node, unless one is recorded. -/
def memoize (a : Annotations) (n : NodeId) (s : Strategy) : Annotations :=
  ⟨a.entries.modify n.index fun e => { e with strategy := some (e.strategy.getD s) }⟩

end Annotations

end Algol68
