import Algol68.Machine.Clause
import Algol68.Machine.Loop
import Algol68.Machine.Call
import Algol68.Machine.Gather
import Algol68.Value.Formula
/-!
Units.  A unit is evaluated by its kind; afterwards the machine knows how to evaluate it again.
-/

namespace Algol68

namespace Exec

/-- Evaluate a unit: by its kind the first time, as recorded later. -/
def unit (node : NodeId) : Exec Agenda := do
  count fun c => { c with units := c.units + 1 }
  match (← get).annotations.strategy node with
  | none => return [.elaborate node, .settle node]
  | some ⟨.unit, source⟩ =>
    return [if source = node then .elaborate node else .unit source, .within node]
  | some ⟨_, source⟩ => return [.elaborate source, .within node]

/-- How to evaluate a closed clause again.  A clause without locals whose serial clause is a single
unit of the clause's own mode is that unit. -/
def closedStrategy (job : Job) (annotations : Annotations) (node : NodeId) (scope : ScopeId)
    (serial : NodeId) : Strategy :=
  let flags := annotations.flags serial
  match annotations.chain serial with
  | some [.unit inner] =>
    if flags.singleStep && flags.labelFree && (job.program.scopes.get scope).locals.isEmpty &&
        job.program.tree.mode inner = job.program.tree.mode node then ⟨.unit, inner⟩
    else ⟨.closed, node⟩
  | _ => ⟨.closed, node⟩

/-- How to evaluate a node again once it was evaluated. -/
def strategyOf (job : Job) (annotations : Annotations) (node : NodeId) : Strategy :=
  match job.program.tree.kind node with
  | .closed scope serial => closedStrategy job annotations node scope serial
  | .conditional .. => ⟨.conditional, node⟩
  | .integerCase .. => ⟨.integerCase, node⟩
  | .conformityCase .. => ⟨.conformityCase, node⟩
  | .loop _ => ⟨.loop, node⟩
  | .collateral _ => ⟨.collateral, node⟩
  | .parallel _ => ⟨.parallel, node⟩
  | _ => ⟨.unit, node⟩

def settle (job : Job) (node : NodeId) : Exec Unit :=
  annotate fun a => a.memoize node (strategyOf job a node)

/-- Evaluate an enclosed clause in a frame of its own. -/
def enclosed (job : Job) (scope : ScopeId) (work : Agenda) : Exec Agenda := do
  let before ← enter job scope
  return work ++ [.leave before]

def valueOf (job : Job) : Literal → Value
  | .int n => .int n
  | .real x => .real x
  | .bool b => .bool b
  | .char c => .char c
  | .string tag => .string (job.program.interner.lookup tag)

/-- The tasks of a formula, its operands evaluated before its operator. -/
def applied (op : Operator) (standard : StandardOperator → Task) (arity : Nat) (site : NodeId) :
    Task :=
  match op with
  | .standard op => standard op
  | .user slot => .operate slot arity site

/-- Evaluate a node by its kind. -/
def elaborate (job : Job) (node : NodeId) : Exec Agenda := do
  let tree := job.program.tree
  let mode := tree.mode node
  let baseline ← depth
  match tree.kind node with
  | .closed scope serial =>
    return (← enclosed job scope [.clause serial false]) ++ [.yields mode baseline]
  | .conditional scope enquiry thenPart elsePart =>
    return (← enclosed job scope [.clause enquiry true, .branch thenPart elsePart mode]) ++
      [.yields mode baseline]
  | .integerCase scope enquiry items outPart =>
    let units ← alternatives job node (tree.list items)
    return (← enclosed job scope [.clause enquiry true, .choose units outPart mode]) ++
      [.yields mode baseline]
  | .conformityCase scope enquiry items outPart =>
    let units ← alternatives job node (tree.list items)
    return (← enclosed job scope [.clause enquiry true, .conform units outPart mode]) ++
      [.yields mode baseline]
  | .loop id =>
    let parts := tree.loopParts id
    return (← gather job (.loop parts) [] [parts.fromPart, parts.byPart, parts.toPart]) ++
      [.yields mode baseline]
  | .collateral units =>
    return (tree.list units).map .unit ++ [.aggregate mode baseline, .yields mode baseline]
  | .parallel units =>
    return ((tree.list units).flatMap fun u => [.unit u, .cut baseline]) ++
      [.yields mode baseline]
  | .identityDeclaration slot value => return [.unit value, .bind slot]
  | .variableDeclaration slot generator init => return [.unit generator, .declare slot init]
  | .modeDeclaration => return []
  | .literal l =>
    push job (valueOf job l)
    return []
  | .identifier slot =>
    push job (← load slot)
    return []
  | .standard p =>
    push job (.procedure (.standard p))
    return []
  | .formatText tag =>
    push job (.format (job.program.interner.lookup tag))
    return []
  | .nihil =>
    push job .nil
    return []
  | .skip =>
    pushUndefined job mode
    return []
  | .routineText .. =>
    let frames := (← get).frames
    let environ ← lift do frames.handle (← frames.resolve (job.program.environLevel node))
    push job (.procedure (.routine node environ))
    return []
  | .cast unit => return [.unit unit]
  | .call primary args => return [.unit primary, .arguments (tree.list args) node]
  | .slice primary indexers => return [.unit primary, .indexers (tree.list indexers)]
  | .generator _ bounds =>
    let target :=
      match job.program.modes.get mode with
      | .ref target => target
      | _ => mode
    gather job (.generate target) [] (boundUnits tree (tree.list bounds))
  | .selection field secondary => return [.unit secondary, .select field]
  | .formula op left right => return [.unit left, .unit right, applied op .dyadic 2 node]
  | .monadic op operand => return [.unit operand, applied op .monadic 1 node]
  | .identityRelation positive left right => return [.unit left, .unit right, .identity positive]
  | .andFunction left right => return [.unit left, .shortCircuit right true]
  | .orFunction left right => return [.unit left, .shortCircuit right false]
  | .assignation destination source => return [.unit destination, .unit source, .assign]
  | .coercion kind operand => return [.unit operand, .coerce kind node operand baseline]
  | .diagonal offset operand => gather job (.diagonal operand) [] [offset]
  | .transpose operand => return [.unit operand, .transpose]
  | .rowFunction offset operand => gather job (.matrix operand false) [] [offset]
  | .columnFunction offset operand => gather job (.matrix operand true) [] [offset]
  | .jump label => jump label
  | .assertion condition => return [.unit condition, .assert]
  | kind => fail (.unknownNodeKind kind.name)
where
  /-- Leave for the clause that owns a label: the one that runs in the first activation of the
  label's range on the static chain. -/
  jump (id : LabelId) : Exec Agenda := do
    let label := job.program.labels.get id
    match (← get).frames.findScope label.scope with
    | some ⟨_, _, _, serial, _, some r⟩ =>
      if label.owner = some r.owner then
        throw (.jump ⟨r.owner, label.target, serial, r.baseline⟩)
      else fail (.danglingJump (job.program.interner.lookup label.name))
    | _ => fail (.danglingJump (job.program.interner.lookup label.name))

/-- Give a local the name on the stack, then evaluate its initial value. -/
def declare (slot : Slot) (init : Option NodeId) : Exec Agenda := do
  let v ← pop
  let name ← lift v.asName
  store slot v
  match init with
  | some unit => return [.unit unit, .initialise name]
  | none => return []

/-- Assign the value on the stack to the name below it, which stays. -/
def assignation (job : Job) : Exec Unit := do
  let v ← pop
  let destination ← pop
  assign (← lift destination.asName) v
  push job destination

/-- Whether two names are the same, or both `NIL`. -/
def sameName : Value → Value → Checked Bool
  | .name m, .name n => .ok (m = n)
  | .nil, .nil => .ok true
  | .name _, .nil | .nil, .name _ => .ok false
  | .name _, v | .nil, v => Value.mismatch "REF" v
  | v, _ => Value.mismatch "REF" v

def identity (job : Job) (positive : Bool) : Exec Unit := do
  let right ← pop
  let left ← pop
  push job (.bool ((← lift (sameName left right)) == positive))

def dyadic (job : Job) (op : StandardOperator) : Exec Unit := do
  let right ← pop
  let left ← pop
  push job (← lift (op.dyadic job.config.objectLimit left right))

/-- A monadic operator.  Bounds are looked for through names. -/
def monadic (job : Job) (op : StandardOperator) : Exec Agenda := do
  match op, ← pop with
  | .upb, .name n | .lwb, .name n =>
    push job (← read n)
    return [.monadic op]
  | _, v =>
    push job (← lift (op.monadic v))
    return []

def coerce (job : Job) (kind : CoercionKind) (node operand : NodeId) (baseline : Nat) :
    Exec Agenda := do
  match kind with
  | .void =>
    cut baseline
    return []
  | .deprocedure => callValue job (← pop) [] node
  | .dereference =>
    push job (← read (← lift (← pop).asName))
    return []
  | .unite =>
    match ← pop with
    | .union variant payload => push job (.union variant payload)
    | v => push job (.union (job.program.tree.mode operand) v)
    return []
  | .widen =>
    match ← pop with
    | .int n => push job (.real n.toFloat)
    | .real x => push job (.real x)
    | v => lift (Value.mismatch "INT or REAL" v)
    return []
  | .row =>
    push job (Value.rowed job.program.modes (job.program.tree.mode node) (← pop))
    return []

def shortCircuit (job : Job) (right : NodeId) (conjunction : Bool) : Exec Agenda := do
  let left ← popBool
  if left = conjunction then return [.unit right]
  else
    push job (.bool left)
    return []

/-- Make a display of the values above `baseline`; for `VOID` drop them. -/
def aggregate (job : Job) (mode : ModeId) (baseline : Nat) : Exec Unit := do
  if mode = .void then cut baseline
  else
    let size ← depth
    if size < baseline then fail .stackUnderflow
    let values ← popMany (size - baseline)
    push job (← lift (Value.display job.program.modes mode values))

/-- A clause must have left exactly its value above `baseline`. -/
def yields (mode : ModeId) (baseline : Nat) : Exec Unit := do
  let expected := if mode = .void then baseline else baseline + 1
  let actual ← depth
  if actual ≠ expected then fail (.stackImbalance expected actual)

end Exec

/-- Do a task; the tasks to do next take its place. -/
def Task.exec (job : Job) : Task → Exec Agenda
  | .unit node => Exec.unit node
  | .elaborate node => Exec.elaborate job node
  | .settle node => do Exec.settle job node; return []
  | .within _ => return []
  | .yields mode baseline => do Exec.yields mode baseline; return []
  | .cut baseline => do Exec.cut baseline; return []
  | .leave depth => do Exec.leave depth; return []
  | .clause node enquiry => Exec.clause job node enquiry
  | .labelled c => do Exec.retract c; return []
  | .branch thenPart elsePart mode => do
    if ← Exec.popBool then return [.unit thenPart] else Exec.orUndefined job mode elsePart
  | .choose alternatives outPart mode => do
    Exec.orUndefined job mode ((Exec.nth alternatives (← Exec.popInt)).or outPart)
  | .conform alternatives outPart mode => Exec.conform job alternatives outPart mode
  | .store slot v => do Exec.store slot v; return []
  | .bind slot => do Exec.store slot (← Exec.pop); return []
  | .declare slot init => Exec.declare slot init
  | .initialise name => do Exec.assign name (← Exec.pop); return []
  | .assign => do Exec.assignation job; return []
  | .take g => Exec.take job g
  | .enterLoop i => Exec.enterLoop job i
  | .enterBody i => Exec.enterBody job i
  | .iterate i => Exec.iterate job i
  | .afterWhile i => Exec.afterWhile i
  | .afterUntil i => Exec.afterUntil i
  | .advance i => Exec.advance i
  | .arguments args site => Exec.arguments args site
  | .call callee count site => do Exec.callValue job callee (← Exec.popMany count) site
  | .operate slot count site => Exec.operate job slot count site
  | .enterRoutine scope environ args body => Exec.enterRoutine job scope environ args body
  | .endCall => do Exec.endCall; return []
  | .print values => Exec.print job values
  | .dyadic op => do Exec.dyadic job op; return []
  | .monadic op => Exec.monadic job op
  | .indexers nodes => Exec.indexers job nodes
  | .select field => do
    Exec.push job (← Exec.lift ((← Exec.pop).field field)); return []
  | .identity positive => do Exec.identity job positive; return []
  | .coerce kind node operand baseline => Exec.coerce job kind node operand baseline
  | .shortCircuit right conjunction => Exec.shortCircuit job right conjunction
  | .assert => do
    if ← Exec.popBool then return [] else Exec.fail .assertionFailed
  | .diagonal offset => do
    Exec.push job (.row (← Exec.lift ((← Exec.popRow).diagonal offset))); return []
  | .matrix index column => do
    Exec.push job (.row (← Exec.lift ((← Exec.popRow).asMatrix index column))); return []
  | .transpose => do
    Exec.push job (.row (← Exec.lift (← Exec.popRow).transpose)); return []
  | .aggregate mode baseline => do Exec.aggregate job mode baseline; return []

end Algol68
