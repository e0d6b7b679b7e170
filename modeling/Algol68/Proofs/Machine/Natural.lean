import Algol68.Machine.Unit
import Algol68.Proofs.Value.Natural

/-! Tasks that work on values alone. They touch the stack, the store and the transput and nothing
else of a machine, and they commute with renaming the procedures in the values there. -/

namespace Algol68

/-- Another machine that was given the stack and the store of this one, with their procedures
renamed, and its transput. -/
def Machine.onto (m : Machine) (ρ : Procedure → Procedure) (r : Machine) : Machine := { r with
  stack := m.stack.map (.rename ρ)
  store := m.store.rename ρ
  transput := m.transput }

def Purpose.rename (ρ : Procedure → Procedure) : Purpose → Purpose
  | .slice base trimmers => .slice (base.rename ρ) trimmers
  | p => p

def Gathering.rename (ρ : Procedure → Procedure) (g : Gathering) : Gathering :=
  { g with purpose := g.purpose.rename ρ }

/-- The task with every procedure in its values replaced. -/
def Task.rename (ρ : Procedure → Procedure) : Task → Task
  | .store slot v => .store slot (v.rename ρ)
  | .take g => .take (g.rename ρ)
  | .call callee count site => .call (callee.rename ρ) count site
  | .enterRoutine scope environ args body => .enterRoutine scope environ (args.map (.rename ρ)) body
  | .print values => .print (values.map (.rename ρ))
  | t => t

abbrev Agenda.rename (ρ : Procedure → Procedure) (A : Agenda) : Agenda := A.map (Task.rename ρ)

namespace Exec

variable {α β γ δ : Type} {ρ : Procedure → Procedure} {f : α → β} {g : γ → δ}

/-- Started in a machine with renamed values, `y` does what `x` does, its result taken along `f`;
neither touches anything but the stack, the store and the transput. -/
def Natural (ρ : Procedure → Procedure) (f : α → β) (x : Exec α) (y : Exec β) : Prop :=
  ∀ m r, y (m.onto ρ r) =
    match x m with
    | .ok a m' => .ok (f a) (m'.onto ρ r)
    | .error s m' => .error s (m'.onto ρ r)

namespace Natural

theorem pure (a : α) : Natural ρ f (Pure.pure a) (Pure.pure (f a)) := fun _ _ => rfl

theorem bind {x : Exec α} {y : Exec β} {k : α → Exec γ} {l : β → Exec δ} (h : Natural ρ f x y)
    (hk : ∀ a, Natural ρ g (k a) (l (f a))) : Natural ρ g (x >>= k) (y >>= l) := by
  intro m r
  simp only [Bind.bind, EStateM.bind, h m r]
  cases x m with
  | ok a m' => exact hk a m' r
  | error s m' => rfl

theorem fail (c : Cause) : Natural ρ f (Exec.fail c) (Exec.fail c) := fun _ _ => rfl

theorem lift {c : Checked α} {d : Checked β} (h : d = f <$> c) :
    Natural ρ f (Exec.lift c) (Exec.lift d) := by
  intro m r
  subst h
  cases c <;> rfl

theorem ite {p : Prop} [Decidable p] {x x' : Exec α} {y y' : Exec β} (h : p → Natural ρ f x y)
    (h' : ¬ p → Natural ρ f x' y') :
    Natural ρ f (if p then x else x') (if p then y else y') := by
  split
  · next hp => exact h hp
  · next hp => exact h' hp

theorem get {k : Machine → Exec α} {l : Machine → Exec β}
    (h : ∀ m r, Natural ρ f (k m) (l (m.onto ρ r))) :
    Natural ρ f (do k (← MonadState.get)) (do l (← MonadState.get)) := fun m r => h m r m r

theorem modify {k l : Machine → Machine} (h : ∀ m r, l (m.onto ρ r) = (k m).onto ρ r) :
    Natural ρ id (modify k) (modify l) :=
  fun m r => congrArg (EStateM.Result.ok ()) (h m r)

theorem depth : Natural ρ id Exec.depth Exec.depth := by
  refine .get fun m r => ?_
  have size : (m.onto ρ r).stack.size = m.stack.size := by simp [Machine.onto]
  rw [size]
  exact .pure _

theorem push (job : Job) (v : Value) :
    Natural ρ id (Exec.push job v) (Exec.push job (v.rename ρ)) := by
  refine .get fun m r => ?_
  have size : (m.onto ρ r).stack.size = m.stack.size := by simp [Machine.onto]
  rw [size]
  refine .ite (fun _ => .fail _) fun _ => .modify fun m r => ?_
  simp [Machine.onto]

theorem pop : Natural ρ (Value.rename ρ) Exec.pop Exec.pop := by
  refine .get fun m r => ?_
  have back : (m.onto ρ r).stack.back? = m.stack.back?.map (.rename ρ) := by
    simp [Machine.onto]
  rw [back]
  cases m.stack.back? with
  | none => exact .fail _
  | some v =>
    refine .bind (.modify fun m r => ?_) fun _ => .pure v
    simp [Machine.onto]

theorem popMany (n : Nat) : Natural ρ (List.map (Value.rename ρ)) (Exec.popMany n)
    (Exec.popMany n) := by
  refine .get fun m r => ?_
  have size : (m.onto ρ r).stack.size = m.stack.size := by simp [Machine.onto]
  dsimp only
  rw [size]
  refine .ite (fun _ => .fail _) fun _ => .get fun m' r' => ?_
  have values : ((m'.onto ρ r').stack.extract (m.stack.size - n) m.stack.size).toList =
      ((m'.stack.extract (m.stack.size - n) m.stack.size).toList).map (.rename ρ) := by
    simp [Machine.onto]
  rw [values]
  exact .bind (.modify fun m r => by simp [Machine.onto]) fun _ => .pure _

theorem cut (baseline : Nat) : Natural ρ id (Exec.cut baseline) (Exec.cut baseline) :=
  .modify fun m r => by simp [Machine.onto]

theorem popInt : Natural ρ id Exec.popInt Exec.popInt :=
  pop.bind fun v => .lift (by simp)

theorem popBool : Natural ρ id Exec.popBool Exec.popBool :=
  pop.bind fun v => .lift (by simp)

theorem read (n : Name) : Natural ρ (Value.rename ρ) (Exec.read n) (Exec.read n) :=
  .get fun m _ => .lift (m.store.get_rename ρ n)

theorem popRow : Natural ρ (Row.map (Value.rename ρ)) Exec.popRow Exec.popRow := by
  refine pop.bind fun v => ?_
  cases v with
  | name n =>
    refine .get fun m _ => .lift ?_
    change (do (← (m.store.rename ρ).get n).asRow) = _ <$> (do (← m.store.get n).asRow)
    simp only [Store.get_rename, Checked.bind_map, Checked.map_bind, Value.asRow_rename]
  | row r => exact .lift (by rw [Value.rename_row]; rfl)
  | struct vs => exact .lift (Value.asRow_rename ρ (.struct vs))
  | _ => exact .lift (Value.asRow_rename ρ _)

theorem assign (n : Name) (v : Value) :
    Natural ρ id (Exec.assign n v) (Exec.assign n (v.rename ρ)) := by
  refine .get fun m r => ?_
  refine .bind (.lift (m.store.assigned_rename ρ n v)) fun c => .modify fun m r => ?_
  simp [Machine.onto]

theorem allocate (v : Value) :
    Natural ρ id (Exec.allocate v) (Exec.allocate (v.rename ρ)) := by
  intro m r
  simp only [Exec.allocate, modifyGet, MonadStateOf.modifyGet]
  delta EStateM.modifyGet
  simp only [Machine.onto, Store.allocate_rename]
  rfl

theorem transput (k : Transput → Transput) :
    Natural ρ id (Exec.transput k) (Exec.transput k) := .modify fun _ _ => rfl

end Natural

/-! The tasks. -/

theorem conclude_natural (job : Job) (found : List (Option Int64)) (p : Purpose) :
    Natural ρ (Agenda.rename ρ) (conclude job found p) (conclude job found (p.rename ρ)) := by
  cases p with
  | loop parts => exact .pure _
  | generate target =>
    refine .bind (f := Value.rename ρ) (.lift (Value.initial_rename ρ ..).symm) fun v => ?_
    exact (Natural.allocate v).bind fun n => (Natural.push job (.name n)).bind fun _ => .pure []
  | slice base trimmers =>
    refine .get fun m r => ?_
    have sliced : Value.slice (m.onto ρ r).store (base.rename ρ) (Indexer.ofParts trimmers found) =
        Value.rename ρ <$> Value.slice m.store base (Indexer.ofParts trimmers found) :=
      Value.slice_rename ρ m.store base _
    dsimp only [Purpose.rename]
    rw [sliced]
    cases Value.slice m.store base (Indexer.ofParts trimmers found) with
    | ok v => exact (Natural.push job v).bind fun _ => .pure []
    | error e => exact fun _ _ => rfl
  | diagonal operand => exact .pure _
  | matrix operand column => exact .pure _

theorem gather_natural (job : Job) (p : Purpose) (found : List (Option Int64))
    (wanted : List (Option NodeId)) :
    Natural ρ (Agenda.rename ρ) (gather job p found wanted)
      (gather job (p.rename ρ) found wanted) := by
  induction wanted generalizing found with
  | nil => exact conclude_natural job found p
  | cons unit wanted ih =>
    cases unit with
    | none => exact ih _
    | some unit => exact .pure _

theorem take_natural (job : Job) (g : Gathering) :
    Natural ρ (Agenda.rename ρ) (take job g) (take job (g.rename ρ)) :=
  Natural.popInt.bind fun n => gather_natural job g.purpose (g.found ++ [some n]) g.wanted

theorem orUndefined_natural (job : Job) (mode : ModeId) (unit : Option NodeId) :
    Natural ρ (Agenda.rename ρ) (orUndefined job mode unit) (orUndefined job mode unit) := by
  cases unit with
  | some unit => exact .pure _
  | none =>
    refine .bind (f := id) ?_ fun _ => .pure []
    refine .ite (fun _ => .pure _) fun _ => ?_
    have := Natural.push (ρ := ρ) job (Value.undefinedOf job.program.modes mode)
    rwa [Value.undefinedOf_rename] at this

theorem yields_natural (mode : ModeId) (baseline : Nat) :
    Natural ρ id (yields mode baseline) (yields mode baseline) :=
  Natural.depth.bind fun _ => .ite (fun _ => .fail _) fun _ => .pure _

theorem assignation_natural (job : Job) : Natural ρ id (assignation job) (assignation job) := by
  refine Natural.pop.bind fun v => Natural.pop.bind fun destination => ?_
  refine .bind (f := id) (.lift (by simp)) fun n => ?_
  exact (Natural.assign n v).bind fun _ => Natural.push job destination

theorem sameName_rename (v w : Value) :
    sameName (v.rename ρ) (w.rename ρ) = sameName v w := by
  cases v with
  | name m => cases w <;> simp [sameName, Value.mismatch, Value.shape]
  | nil => cases w <;> simp [sameName, Value.mismatch, Value.shape]
  | _ => simp [sameName, Value.mismatch, Value.shape]

theorem identity_natural (job : Job) (positive : Bool) :
    Natural ρ id (identity job positive) (identity job positive) := by
  refine Natural.pop.bind fun right => Natural.pop.bind fun left => ?_
  refine .bind (f := id) (.lift ?_) fun b => Natural.push job _
  rw [sameName_rename]
  simp

theorem dyadic_natural (job : Job) (op : StandardOperator) :
    Natural ρ id (dyadic job op) (dyadic job op) := by
  refine Natural.pop.bind fun right => Natural.pop.bind fun left => ?_
  exact .bind (.lift (op.dyadic_rename ρ _ left right)) fun v => Natural.push job v

theorem monadic_natural (job : Job) (op : StandardOperator) :
    Natural ρ (Agenda.rename ρ) (monadic job op) (monadic job op) := by
  refine Natural.pop.bind fun v => ?_
  have plain : Natural ρ (Agenda.rename ρ)
      (do push job (← lift (op.monadic v)); return [])
      (do push job (← lift (op.monadic (v.rename ρ))); return []) :=
    .bind (.lift (op.monadic_rename ρ v)) fun w => (Natural.push job w).bind fun _ => .pure []
  have through (op : StandardOperator) (n : Name) : Natural ρ (Agenda.rename ρ)
      (do push job (← read n); return [.monadic op])
      (do push job (← read n); return [.monadic op]) :=
    (Natural.read n).bind fun w => (Natural.push job w).bind fun _ => .pure [Task.monadic op]
  cases op with
  | upb | lwb =>
    cases v with
    | name n => exact through _ n
    | row r =>
      rw [Value.rename_row] at plain ⊢
      exact plain
    | struct vs =>
      rw [Value.rename_struct] at plain ⊢
      exact plain
    | _ => exact plain
  | _ => exact plain

theorem coerce_natural (job : Job) {kind : CoercionKind} (hk : kind ≠ .deprocedure)
    (node operand : NodeId) (baseline : Nat) :
    Natural ρ (Agenda.rename ρ) (coerce job kind node operand baseline)
      (coerce job kind node operand baseline) := by
  cases kind with
  | void => exact (Natural.cut baseline).bind fun _ => .pure []
  | deprocedure => exact absurd rfl hk
  | dereference =>
    refine Natural.pop.bind fun v => ?_
    refine .bind (f := id) (.lift (by simp)) fun n => ?_
    exact (Natural.read n).bind fun w => (Natural.push job w).bind fun _ => .pure []
  | unite =>
    refine Natural.pop.bind fun v => ?_
    have united (w : Value) : Natural ρ (Agenda.rename ρ) (do push job w; return [])
        (do push job (w.rename ρ); return []) := (Natural.push job w).bind fun _ => .pure []
    cases v with
    | union variant payload => exact united (.union variant payload)
    | row r =>
      have := united (.union (job.program.tree.mode operand) (.row r))
      simp only [Value.rename_union, Value.rename_row] at this ⊢
      exact this
    | struct vs =>
      have := united (.union (job.program.tree.mode operand) (.struct vs))
      simp only [Value.rename_union, Value.rename_struct] at this ⊢
      exact this
    | _ => exact united (.union (job.program.tree.mode operand) _)
  | widen =>
    refine Natural.pop.bind fun v => ?_
    cases v with
    | int n => exact (Natural.push job (.real n.toFloat)).bind fun _ => .pure []
    | real x => exact (Natural.push job (.real x)).bind fun _ => .pure []
    | row r =>
      rw [Value.rename_row]
      exact fun _ _ => rfl
    | struct vs =>
      rw [Value.rename_struct]
      exact fun _ _ => rfl
    | _ => exact fun _ _ => rfl
  | row =>
    refine Natural.pop.bind fun v => ?_
    rw [Value.rowed_rename]
    exact (Natural.push job _).bind fun _ => .pure []

theorem shortCircuit_natural (job : Job) (right : NodeId) (conjunction : Bool) :
    Natural ρ (Agenda.rename ρ) (shortCircuit job right conjunction)
      (shortCircuit job right conjunction) :=
  Natural.popBool.bind fun left => .ite (fun _ => .pure [Task.unit right]) fun _ =>
    (Natural.push job (.bool left)).bind fun _ => .pure []

theorem aggregate_natural (job : Job) (mode : ModeId) (baseline : Nat) :
    Natural ρ id (aggregate job mode baseline) (aggregate job mode baseline) := by
  refine .ite (fun _ => .cut baseline) fun _ => Natural.depth.bind fun size => ?_
  refine .ite (fun _ => .fail _) fun _ => (Natural.popMany _).bind fun values => ?_
  exact .bind (.lift (Value.display_rename ρ ..)) fun v => Natural.push job v

theorem onRow_natural (job : Job) {k : Row Value → Checked (Row Value)}
    (hk : ∀ r, k (r.map (Value.rename ρ)) = Row.map (Value.rename ρ) <$> k r) :
    Natural ρ (Agenda.rename ρ) (do push job (.row (← lift (k (← popRow)))); return [])
      (do push job (.row (← lift (k (← popRow)))); return []) := by
  refine Natural.popRow.bind fun r => .bind (.lift (hk r)) fun row => ?_
  rw [← Value.rename_row]
  exact (Natural.push job _).bind fun _ => .pure []

end Exec

/-- Whether a task works on values alone. -/
def Task.onValues : Task → Bool
  | .within _ | .yields .. | .cut _ | .branch .. | .choose .. | .initialise _ | .assign | .take _
  | .arguments .. | .dyadic _ | .monadic _ | .indexers _ | .select _ | .identity _
  | .shortCircuit .. | .assert | .diagonal _ | .matrix .. | .transpose | .aggregate .. => true
  | .coerce kind .. => kind ≠ .deprocedure
  | _ => false

namespace Exec

theorem exec_natural (job : Job) {t : Task} (h : t.onValues) :
    Natural ρ (Agenda.rename ρ) (t.exec job) ((t.rename ρ).exec job) := by
  cases t with
  | within node => exact .pure []
  | yields mode baseline => exact (yields_natural mode baseline).bind fun _ => .pure []
  | cut baseline => exact (Natural.cut baseline).bind fun _ => .pure []
  | branch thenPart elsePart mode =>
    exact Natural.popBool.bind fun b => .ite (fun _ => .pure [Task.unit thenPart]) fun _ =>
      orUndefined_natural job mode elsePart
  | choose alternatives outPart mode =>
    exact Natural.popInt.bind fun n => orUndefined_natural job mode _
  | initialise name =>
    exact Natural.pop.bind fun v => (Natural.assign name v).bind fun _ => .pure []
  | assign => exact (assignation_natural job).bind fun _ => .pure []
  | take g => exact take_natural job g
  | arguments args site =>
    refine Natural.pop.bind fun callee => ?_
    have := Natural.pure (ρ := ρ) (f := Agenda.rename ρ)
      (args.map .unit ++ [.call callee args.length site])
    simpa [Agenda.rename, Task.rename, Function.comp_def] using this
  | dyadic op => exact (dyadic_natural job op).bind fun _ => .pure []
  | monadic op => exact monadic_natural job op
  | indexers nodes =>
    exact Natural.pop.bind fun base =>
      gather_natural job (.slice base (indexerUnits job.program.tree nodes).2) [] _
  | select field =>
    exact Natural.pop.bind fun v => .bind (.lift (Value.field_rename ρ field v)) fun w =>
      (Natural.push job w).bind fun _ => .pure []
  | identity positive => exact (identity_natural job positive).bind fun _ => .pure []
  | coerce kind node operand baseline =>
    exact coerce_natural job (by simpa [Task.onValues] using h) node operand baseline
  | shortCircuit right conjunction => exact shortCircuit_natural job right conjunction
  | assert => exact Natural.popBool.bind fun b => .ite (fun _ => .pure []) fun _ => .fail _
  | diagonal offset => exact onRow_natural job fun r => r.diagonal_map _ offset
  | matrix index column => exact onRow_natural job fun r => r.asMatrix_map _ index column
  | transpose => exact onRow_natural job fun r => r.transpose_map _
  | aggregate mode baseline => exact (aggregate_natural job mode baseline).bind fun _ => .pure []
  | _ => cases h

/-- Whether a node of this kind is evaluated by work on values alone. -/
def onValues : NodeKind → Bool
  | .closed .. | .conditional .. | .integerCase .. | .conformityCase .. | .identifier _
  | .routineText .. | .jump _ => false
  | _ => true

theorem elaborate_natural (hs : ∀ p, ρ (.standard p) = .standard p) (job : Job) {node : NodeId}
    (h : onValues (job.program.tree.kind node)) :
    Natural ρ (Agenda.rename ρ) (elaborate job node) (elaborate job node) := by
  refine Natural.depth.bind fun baseline => ?_
  have work {A : Agenda} (hA : Agenda.rename ρ A = A) :
      Natural ρ (Agenda.rename ρ) (Pure.pure A) (Pure.pure A) := by
    have := Natural.pure (ρ := ρ) (f := Agenda.rename ρ) A
    rwa [hA] at this
  have pushed {v : Value} (hv : v.rename ρ = v) : Natural ρ (Agenda.rename ρ)
      (do push job v; return []) (do push job v; return []) := by
    have := Natural.push (ρ := ρ) job v
    rw [hv] at this
    exact this.bind fun _ => .pure []
  cases hk : job.program.tree.kind node with
  | closed | conditional | integerCase | conformityCase | identifier | routineText | jump =>
    simp [hk, onValues] at h
  | loop id =>
    refine (gather_natural job (.loop (job.program.tree.loopParts id)) [] _).bind fun A => ?_
    have := Natural.pure (ρ := ρ) (f := Agenda.rename ρ)
      (A ++ [.yields (job.program.tree.mode node) baseline])
    simpa [Agenda.rename, Task.rename] using this
  | collateral units => exact work (by simp [Agenda.rename, Task.rename])
  | parallel units => exact work (by simp [Agenda.rename, Task.rename, List.map_flatMap])
  | literal l => exact pushed (by cases l <;> rfl)
  | standard p => exact pushed (congrArg Value.procedure (hs p))
  | formatText tag => exact pushed rfl
  | nihil => exact pushed rfl
  | skip =>
    have := orUndefined_natural (ρ := ρ) job (job.program.tree.mode node) none
    exact this
  | generator heap bounds => exact gather_natural job (.generate _) [] _
  | formula op left right => cases op <;> exact work rfl
  | monadic op operand => cases op <;> exact work rfl
  | diagonal offset operand => exact gather_natural job (.diagonal operand) [] _
  | rowFunction offset operand => exact gather_natural job (.matrix operand false) [] _
  | columnFunction offset operand => exact gather_natural job (.matrix operand true) [] _
  | separator | exit | punct | serialClause | group | declarationList | labeled | trimmer | bound
  | conformityAlternative => exact .fail _
  | _ => exact work rfl

end Exec

end Algol68
