import Algol68.Program.Scope
import Algol68.Program.Operator
import Algol68.Source.Span
/-!
Program trees.  Nodes are numbered in the order they were made and refer to earlier nodes, to
segments of the pool of child lists, or to entries of the pools of loops and of alternatives.
-/

namespace Algol68

/-- The value a denotation stands for. -/
inductive Literal where
  | int (value : Int64)
  | real (value : Float)
  | bool (value : Bool)
  | char (value : Char)
  | string (text : Tag)
  deriving Inhabited

/-- The parts of a loop clause.  `scope` holds the counter, `bodyScope` is shared by the
`while`, `do` and `until` parts. -/
structure LoopParts where
  scope : ScopeId
  bodyScope : ScopeId
  counter : Option Slot
  fromPart : Option NodeId
  byPart : Option NodeId
  toPart : Option NodeId
  whilePart : Option NodeId
  doPart : NodeId
  untilPart : Option NodeId
  deriving DecidableEq, Inhabited

/-- The counter is stepped only if the loop names it or bounds it. -/
def LoopParts.steps (p : LoopParts) : Bool := p.counter.isSome || p.toPart.isSome

/-- An alternative of a conformity clause: a unit for the values its specifiers accept. -/
structure Alternative where
  specifiers : ModeRange
  binding : Option Slot
  scope : ScopeId
  unit : NodeId
  deriving DecidableEq, Inhabited

/-- What a node of the tree is. -/
inductive NodeKind where
  | serialClause (scope : ScopeId) (items : NodeRange)
  | group (items : NodeRange)
  | declarationList (items : NodeRange)
  | separator
  | exit
  | punct
  | labeled (label : LabelId) (unit : NodeId)
  | identityDeclaration (slot : Slot) (value : NodeId)
  | variableDeclaration (slot : Slot) (generator : NodeId) (init : Option NodeId)
  | modeDeclaration
  | literal (value : Literal)
  | identifier (slot : Slot)
  | standard (procedure : StandardProcedure)
  | call (primary : NodeId) (args : NodeRange)
  | slice (primary : NodeId) (indexers : NodeRange)
  | trimmer (lower upper : Option NodeId)
  | cast (unit : NodeId)
  | formatText (text : Tag)
  | generator (heap : Bool) (bounds : NodeRange)
  | bound (lower upper : Option NodeId)
  | selection (field : Nat) (secondary : NodeId)
  | formula (op : Operator) (left right : NodeId)
  | monadic (op : Operator) (operand : NodeId)
  | identityRelation (positive : Bool) (left right : NodeId)
  | nihil
  | routineText (scope : ScopeId) (params : Nat) (body : NodeId)
  | skip
  | jump (label : LabelId)
  | andFunction (left right : NodeId)
  | orFunction (left right : NodeId)
  | assertion (condition : NodeId)
  | diagonal (offset : Option NodeId) (operand : NodeId)
  | transpose (operand : NodeId)
  | rowFunction (offset : Option NodeId) (operand : NodeId)
  | columnFunction (offset : Option NodeId) (operand : NodeId)
  | assignation (destination source : NodeId)
  | coercion (kind : CoercionKind) (operand : NodeId)
  | closed (scope : ScopeId) (serial : NodeId)
  | conditional (scope : ScopeId) (enquiry thenPart : NodeId) (elsePart : Option NodeId)
  | integerCase (scope : ScopeId) (enquiry : NodeId) (alternatives : NodeRange)
      (outPart : Option NodeId)
  | conformityCase (scope : ScopeId) (enquiry : NodeId) (alternatives : NodeRange)
      (outPart : Option NodeId)
  | conformityAlternative (alternative : AlternativeId)
  | loop (parts : LoopId)
  | collateral (units : NodeRange)
  | parallel (units : NodeRange)
  deriving Inhabited

namespace NodeKind

/-- The name of a kind in messages. -/
def name : NodeKind → String
  | .serialClause .. => "serial clause"
  | .group .. => "group"
  | .declarationList .. => "declaration list"
  | .separator => "separator"
  | .exit => "exit"
  | .punct => "punctuation"
  | .labeled .. => "labelled unit"
  | .identityDeclaration .. => "identity declaration"
  | .variableDeclaration .. => "variable declaration"
  | .modeDeclaration => "mode declaration"
  | .literal .. => "denotation"
  | .identifier .. => "identifier"
  | .standard .. => "standard procedure"
  | .call .. => "call"
  | .slice .. => "slice"
  | .trimmer .. => "trimmer"
  | .cast .. => "cast"
  | .formatText .. => "format text"
  | .generator .. => "generator"
  | .bound .. => "bound"
  | .selection .. => "selection"
  | .formula .. => "formula"
  | .monadic .. => "monadic formula"
  | .identityRelation .. => "identity relation"
  | .nihil => "NIL"
  | .routineText .. => "routine text"
  | .skip => "SKIP"
  | .jump .. => "jump"
  | .andFunction .. => "ANDTH"
  | .orFunction .. => "OREL"
  | .assertion .. => "assertion"
  | .diagonal .. => "DIAG"
  | .transpose .. => "TRNSP"
  | .rowFunction .. => "ROW"
  | .columnFunction .. => "COL"
  | .assignation .. => "assignation"
  | .coercion .. => "coercion"
  | .closed .. => "closed clause"
  | .conditional .. => "conditional clause"
  | .integerCase .. => "case clause"
  | .conformityCase .. => "conformity clause"
  | .conformityAlternative .. => "conformity alternative"
  | .loop .. => "loop clause"
  | .collateral .. => "collateral clause"
  | .parallel .. => "parallel clause"

def isEnclosed : NodeKind → Bool
  | .closed .. | .conditional .. | .integerCase .. | .conformityCase .. | .loop ..
  | .collateral .. | .parallel .. => true
  | _ => false

def isDeclaration : NodeKind → Bool
  | .identityDeclaration .. | .variableDeclaration .. | .modeDeclaration => true
  | _ => false

end NodeKind

structure Node where
  kind : NodeKind
  mode : ModeId
  span : Span
  deriving Inhabited

/-- The nodes of a program and the pools they refer to. -/
structure Tree where
  nodes : Array Node
  lists : Array NodeId
  modeLists : Array ModeId
  loops : Array LoopParts
  alternatives : Array Alternative

namespace Tree

def empty : Tree := ⟨#[], #[], #[], #[], #[]⟩

def size (t : Tree) : Nat := t.nodes.size

def isEmpty (t : Tree) : Bool := t.nodes.isEmpty

def node (t : Tree) (n : NodeId) : Node := t.nodes.getD n.index ⟨.punct, .void, .dummy⟩

def kind (t : Tree) (n : NodeId) : NodeKind := (t.node n).kind

def mode (t : Tree) (n : NodeId) : ModeId := (t.node n).mode

def span (t : Tree) (n : NodeId) : Span := (t.node n).span

def list (t : Tree) (r : NodeRange) : List NodeId := r.read t.lists

def modeList (t : Tree) (r : ModeRange) : List ModeId := r.read t.modeLists

def loopParts (t : Tree) (l : LoopId) : LoopParts := t.loops.getD l.index default

def alternative (t : Tree) (a : AlternativeId) : Alternative :=
  t.alternatives.getD a.index default

def push (t : Tree) (n : Node) : NodeId × Tree :=
  (⟨t.nodes.size⟩, { t with nodes := t.nodes.push n })

def pushList (t : Tree) (ns : List NodeId) : NodeRange × Tree :=
  (⟨t.lists.size, ns.length⟩, { t with lists := t.lists ++ ns })

def pushModeList (t : Tree) (ms : List ModeId) : ModeRange × Tree :=
  (⟨t.modeLists.size, ms.length⟩, { t with modeLists := t.modeLists ++ ms })

def pushLoop (t : Tree) (p : LoopParts) : LoopId × Tree :=
  (⟨t.loops.size⟩, { t with loops := t.loops.push p })

def pushAlternative (t : Tree) (a : Alternative) : AlternativeId × Tree :=
  (⟨t.alternatives.size⟩, { t with alternatives := t.alternatives.push a })

/-- The nodes a node of this kind is made of, from left to right. -/
def children (t : Tree) : NodeKind → List NodeId
  | .serialClause _ items | .group items | .declarationList items => t.list items
  | .collateral units | .parallel units => t.list units
  | .labeled _ unit | .cast unit => [unit]
  | .identityDeclaration _ value => [value]
  | .variableDeclaration _ generator init => generator :: init.toList
  | .call primary args => primary :: t.list args
  | .slice primary indexers => primary :: t.list indexers
  | .trimmer lower upper | .bound lower upper => lower.toList ++ upper.toList
  | .generator _ bounds => t.list bounds
  | .selection _ secondary => [secondary]
  | .formula _ left right | .identityRelation _ left right | .andFunction left right
  | .orFunction left right => [left, right]
  | .assignation destination source => [destination, source]
  | .monadic _ operand | .transpose operand | .coercion _ operand => [operand]
  | .routineText _ _ body => [body]
  | .assertion condition => [condition]
  | .diagonal offset operand | .rowFunction offset operand | .columnFunction offset operand =>
    offset.toList ++ [operand]
  | .closed _ serial => [serial]
  | .conditional _ enquiry thenPart elsePart => enquiry :: thenPart :: elsePart.toList
  | .integerCase _ enquiry alternatives outPart
  | .conformityCase _ enquiry alternatives outPart =>
    enquiry :: t.list alternatives ++ outPart.toList
  | .conformityAlternative a => [(t.alternative a).unit]
  | .loop l =>
    let p := t.loopParts l
    p.fromPart.toList ++ p.byPart.toList ++ p.toPart.toList ++ p.whilePart.toList ++ [p.doPart] ++
      p.untilPart.toList
  | .separator | .exit | .punct | .modeDeclaration | .literal _ | .identifier _ | .standard _
  | .formatText _ | .nihil | .skip | .jump _ => []

end Tree

end Algol68
