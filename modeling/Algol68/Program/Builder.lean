import Algol68.Program.Basic
import Algol68.Program.Chain
import Algol68.Program.Environ
/-!
Assembly of programs.  A builder grows the tables of a program node by node; a serial clause takes
the labels among its items as its own when it is made.
-/

namespace Algol68

/-- The tables of a program under construction. -/
structure Builder where
  tree : Tree
  modes : ModeTable
  scopes : ScopeTable
  labels : LabelTable
  interner : Interner

/-- A step of program assembly. -/
abbrev Build := StateM Builder

namespace Builder

def new : Builder := ⟨.empty, .new, .new, .new, .new⟩

def intern (text : String) : Build Tag := fun b =>
  let (tag, interner) := b.interner.intern text
  (tag, { b with interner := interner })

def mode (m : Mode) : Build ModeId := fun b =>
  let (id, modes) := b.modes.intern m
  (id, { b with modes := modes })

def scope (parent : ScopeId) : Build ScopeId := fun b =>
  let (id, scopes) := b.scopes.push parent
  (id, { b with scopes := scopes })

def declare (scope : ScopeId) (mode : ModeId) : Build Slot := fun b =>
  let (slot, scopes) := b.scopes.addLocal scope mode
  (slot, { b with scopes := scopes })

/-- Declare a label.  It has no target until it stands before a unit and no owner until a serial
clause takes it. -/
def label (scope : ScopeId) (name : String) : Build LabelId := do
  let tag ← intern name
  modifyGet fun b =>
    let (id, labels) := b.labels.push ⟨tag, scope, none, none⟩
    (id, { b with scopes := b.scopes.markLabels scope, labels := labels })

def node (kind : NodeKind) (mode : ModeId) (span : Span) : Build NodeId := fun b =>
  let (id, tree) := b.tree.push ⟨kind, mode, span⟩
  (id, { b with tree := tree })

def list (ns : List NodeId) : Build NodeRange := fun b =>
  let (range, tree) := b.tree.pushList ns
  (range, { b with tree := tree })

def modeList (ms : List ModeId) : Build ModeRange := fun b =>
  let (range, tree) := b.tree.pushModeList ms
  (range, { b with tree := tree })

def modeOf (n : NodeId) : Build ModeId := fun b => (b.tree.mode n, b)

/-- Put a label before a unit. -/
def labeled (label : LabelId) (unit : NodeId) : Build NodeId := do
  let id ← node (.labeled label unit) (← modeOf unit) .dummy
  modifyGet fun b => (id, { b with labels := b.labels.setTarget label id })

/-- Give the labels among `items` to a serial clause. -/
def claim (items : List NodeId) (owner : NodeId) : Build Unit := modify fun b =>
  { b with labels := (b.tree.labelsOf items).foldl (·.setOwner · owner) b.labels }

/-- A serial clause of the given items. -/
def serial (scope : ScopeId) (items : List NodeId) (mode : ModeId) : Build NodeId := do
  let range ← list items
  let id ← node (.serialClause scope range) mode .dummy
  claim items id
  return id

/-- The units with a new separator between each two. -/
def separated : List NodeId → Build (List NodeId)
  | [] => return []
  | [unit] => return [unit]
  | unit :: rest => do
    let separator ← node .separator .void .dummy
    return unit :: separator :: (← separated rest)

/-- A serial clause of units with separators between them. -/
def statements (scope : ScopeId) (units : List NodeId) (mode : ModeId) : Build NodeId := do
  serial scope (← separated units) mode

/-- A closed clause of the mode of its serial clause. -/
def closed (scope : ScopeId) (serial : NodeId) : Build NodeId := do
  node (.closed scope serial) (← modeOf serial) .dummy

def loop (parts : LoopParts) : Build NodeId := do
  let id ← modifyGet fun b =>
    let (id, tree) := b.tree.pushLoop parts
    (id, { b with tree := tree })
  node (.loop id) .void .dummy

/-- An alternative of a conformity clause, of the mode of its unit. -/
def alternative (a : Alternative) : Build NodeId := do
  let mode ← modeOf a.unit
  let id ← modifyGet fun b =>
    let (id, tree) := b.tree.pushAlternative a
    (id, { b with tree := tree })
  node (.conformityAlternative id) mode .dummy

/-- The program whose root is the given clause, the environ of every routine text resolved. -/
def finish (b : Builder) (root : NodeId) : Program where
  tree := b.tree
  modes := b.modes
  scopes := b.scopes
  labels := b.labels
  interner := b.interner
  root := root
  environs := (Array.range b.tree.size).map fun k =>
    b.tree.environLevel b.scopes b.labels ⟨k⟩

end Builder

end Algol68
