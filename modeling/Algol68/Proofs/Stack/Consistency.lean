import Algol68.Proofs.Clause.Stretch
import Algol68.Proofs.Run.Session
import Algol68.Proofs.Run.Signal

/-! Programs whose modes agree about which constructs yield a value. This is said of the tree, node
by node, and of the calls a session makes: a procedure yields a value where one is expected. -/

namespace Algol68

/-- The nodes that a list of units some of which are absent is made of. -/
abbrev presentUnits (us : List (Option NodeId)) : List NodeId := us.filterMap id

namespace Tree

/-- The nodes whose values a node uses for itself: operands, conditions, arguments, subscripts,
bounds, initial values, enquiries, and the elements of a display. -/
def operands (t : Tree) (n : NodeId) : List NodeId :=
  match t.kind n with
  | .identityDeclaration _ value => [value]
  | .variableDeclaration _ generator init => generator :: init.toList
  | .call primary args => primary :: t.list args
  | .slice primary indexers => primary :: presentUnits (Exec.indexerUnits t (t.list indexers)).1
  | .generator _ bounds => presentUnits (Exec.boundUnits t (t.list bounds))
  | .selection _ secondary => [secondary]
  | .formula _ left right | .identityRelation _ left right | .andFunction left right
  | .orFunction left right => [left, right]
  | .assignation destination source => [destination, source]
  | .monadic _ operand | .transpose operand => [operand]
  | .coercion kind operand => if kind = .void then [] else [operand]
  | .assertion condition => [condition]
  | .diagonal offset operand | .rowFunction offset operand | .columnFunction offset operand =>
    offset.toList ++ [operand]
  | .conditional _ enquiry _ _ | .integerCase _ enquiry _ _ | .conformityCase _ enquiry _ _ =>
    [enquiry]
  | .loop l =>
    let p := t.loopParts l
    presentUnits [p.fromPart, p.byPart, p.toPart, p.whilePart, p.untilPart]
  | .collateral units => if t.mode n = .void then [] else t.list units
  | _ => []

/-- The units of the alternatives of a conformity clause. -/
def conformityUnits (t : Tree) (alternatives : List NodeId) : List NodeId :=
  alternatives.filterMap fun n =>
    match t.kind n with
    | .conformityAlternative a => some (t.alternative a).unit
    | _ => none

/-- The nodes one of whose values a node passes on as its own, if any: the serial clause of a closed
clause, branches, alternatives, and the unit of a cast. -/
def passedOn (t : Tree) (n : NodeId) : List NodeId :=
  match t.kind n with
  | .closed _ serial => [serial]
  | .conditional _ _ thenPart elsePart => thenPart :: elsePart.toList
  | .integerCase _ _ items outPart =>
    ChainStep.units (t.flatten (t.list items)) ++ outPart.toList
  | .conformityCase _ _ items outPart =>
    t.conformityUnits (ChainStep.units (t.flatten (t.list items))) ++ outPart.toList
  | .cast unit => [unit]
  | _ => []

/-- Whether a node of this kind always pushes a value. -/
def pushes : NodeKind → Bool
  | .literal _ | .identifier _ | .standard _ | .formatText _ | .nihil | .routineText ..
  | .slice .. | .generator .. | .selection .. | .formula (.standard _) .. | .monadic (.standard _) _
  | .identityRelation .. | .andFunction .. | .orFunction .. | .assignation .. | .diagonal ..
  | .transpose _ | .rowFunction .. | .columnFunction .. => true
  | .coercion kind _ => kind != .void && kind != .deprocedure
  | _ => false

/-- Whether a node of this kind never pushes a value. -/
def pushesNothing : NodeKind → Bool
  | .identityDeclaration .. | .variableDeclaration .. | .modeDeclaration | .assertion _ | .loop _
  | .parallel _ => true
  | .coercion kind _ => kind == .void
  | _ => false

/-- The modes of the nodes agree about which of them yield a value. -/
structure VoidConsistent (t : Tree) : Prop where
  operand : ∀ n, ∀ k ∈ t.operands n, t.mode k ≠ .void
  pushes : ∀ n, Tree.pushes (t.kind n) → t.mode n ≠ .void
  pushesNothing : ∀ n, Tree.pushesNothing (t.kind n) → t.mode n = .void
  doPart : ∀ n l, t.kind n = .loop l → t.mode (t.loopParts l).doPart = .void
  passedOn : ∀ n, ∀ k ∈ t.passedOn n, t.mode k = .void ↔ t.mode n = .void
  /-- A run of a clause that yields a value ends with the one unit that does. -/
  ending : ∀ n scope items, t.kind n = .serialClause scope items → t.mode n ≠ .void →
    ClauseItem.EndsInValue t (t.clauseItems (t.list items))

/-! The condition is one on each node, which can be looked at one after the other. -/

/-- The body of a loop. -/
def bodies (t : Tree) (n : NodeId) : List NodeId :=
  match t.kind n with
  | .loop l => [(t.loopParts l).doPart]
  | _ => []

/-- The items of a serial clause. -/
def courses (t : Tree) (n : NodeId) : List (List ClauseItem) :=
  match t.kind n with
  | .serialClause _ items => [t.clauseItems (t.list items)]
  | _ => []

/-- What `VoidConsistent` asks of a node. -/
def Agrees (t : Tree) (n : NodeId) : Prop :=
  (∀ k ∈ t.operands n, t.mode k ≠ .void) ∧ (pushes (t.kind n) → t.mode n ≠ .void) ∧
    (pushesNothing (t.kind n) → t.mode n = .void) ∧ (∀ k ∈ t.bodies n, t.mode k = .void) ∧
    (∀ k ∈ t.passedOn n, t.mode k = .void ↔ t.mode n = .void) ∧
    (t.mode n ≠ .void → ∀ L ∈ t.courses n, ClauseItem.EndsInValue t L)

instance (t : Tree) (n : NodeId) : Decidable (t.Agrees n) :=
  inferInstanceAs (Decidable (_ ∧ _ ∧ _ ∧ _ ∧ _ ∧ _))

theorem VoidConsistent.of_agrees {t : Tree} (h : ∀ k < t.size, t.Agrees ⟨k⟩) : t.VoidConsistent := by
  have agrees (n : NodeId) : t.Agrees n := by
    by_cases hn : n.index < t.size
    · exact h n.index hn
    · have hk := kind_of_size_le (Nat.le_of_not_lt hn)
      simp [Agrees, operands, Tree.pushes, Tree.pushesNothing, bodies, Tree.passedOn, courses, hk]
  refine ⟨fun n => (agrees n).1, fun n => (agrees n).2.1, fun n => (agrees n).2.2.1, fun n l hk => ?_,
    fun n => (agrees n).2.2.2.2.1, fun n scope items hk hv => ?_⟩
  · exact (agrees n).2.2.2.1 _ (by simp [bodies, hk])
  · exact (agrees n).2.2.2.2.2 hv _ (by simp [courses, hk])

end Tree

/-- The procedure that a task is about to call in a machine, and the node that passes on the value
it yields. -/
def Task.callee? (m : Machine) : Task → Option (Value × NodeId)
  | .call callee _ site => some (callee, site)
  | .operate slot _ site =>
    match m.frames.load slot with
    | .ok callee => some (callee, site)
    | .error _ => none
  | .coerce .deprocedure node _ _ => m.stack.back?.map (·, node)
  | _ => none

/-- Called at `site`, the value yields a value exactly when `site` is to. A standard procedure yields
none, a routine what its body does. -/
def Value.YieldsAt (t : Tree) (site : NodeId) : Value → Prop
  | .procedure (.standard _) => t.mode site = .void
  | .procedure (.routine text _) =>
    ∀ scope params body, t.kind text = .routineText scope params body →
      (t.mode body = .void ↔ t.mode site = .void)
  | _ => True

/-- The modes of the nodes agree about which of them yield a value, and so does every call that a
session comes to. -/
structure Job.VoidConsistent (job : Job) (units : NodeId → Prop) : Prop where
  tree : job.program.tree.VoidConsistent
  calls : ∀ t rest m, Underway job units (t :: rest) m → ∀ callee site,
    t.callee? m = some (callee, site) → callee.YieldsAt job.program.tree site

end Algol68
