import Algol68.Proofs.Run.Session

/-! What becomes of a value that was never assigned. The accessors of plain values and rows report it
as undefined, but the standard operators know it only as an operand of a wrong mode, the queries of a
row apart; and so do widening and what follows or assigns to a name. -/

namespace Algol68

namespace StandardOperator

variable {op : StandardOperator} {limit : Nat} {m : ModeId} {left right : Value}

theorem onRow_undefined (d : Int64) :
    op.onRow d (.undefined m) = fault (.undefinedValue "row") := rfl

theorem dyadic_undefined_left :
    op.dyadic limit (.undefined m) right =
      Value.mismatch "operands of matching modes" (.undefined m) := by
  cases right with
  | int n => cases op <;> rfl
  | _ => rfl

theorem dyadic_undefined_right :
    op.dyadic limit left (.undefined m) =
      if op.isRowQuery = true ∧ left.shape = .int then fault (.undefinedValue "row")
      else Value.mismatch "operands of matching modes" left := by
  cases left with
  | int n =>
    simp only [Value.shape, and_true]
    split
    · next hq => simp only [dyadic, if_pos hq, onRow_undefined]
    · cases op <;> first | rfl | contradiction
  | _ =>
    rw [if_neg (by simp [Value.shape])]
    rfl

/-- A dyadic operator with an undefined operand reports it only as the row of a query. -/
theorem dyadic_undefined (h : left = .undefined m ∨ right = .undefined m) :
    op.dyadic limit left right =
      if op.isRowQuery = true ∧ left.shape = .int then fault (.undefinedValue "row")
      else Value.mismatch "operands of matching modes" left := by
  rcases h with rfl | rfl
  · rw [if_neg (by simp [Value.shape])]
    exact dyadic_undefined_left
  · exact dyadic_undefined_right

theorem monadic_undefined :
    op.monadic (.undefined m) =
      if op = .upb ∨ op = .lwb then fault (.undefinedValue "row")
      else Value.mismatch "operand of a monadic operator" (.undefined m) := by
  cases op <;> rfl

end StandardOperator

namespace Exec

variable {M : Machine} {S : Array Value} {v : Value}

variable {job : Job} {m : ModeId} {node operand : NodeId} {baseline : Nat}

/-- Widening knows an undefined number only as a value of a wrong mode. -/
theorem widen_undefined (h : M.stack = S.push (.undefined m)) :
    coerce job .widen node operand baseline M =
      .error (.fault (.of (.valueMismatch "INT or REAL" .undefined))) { M with stack := S } := by
  simp only [coerce, bind, EStateM.bind, pop_eq h]
  rfl

/-- So does what reads through an undefined name. -/
theorem dereference_undefined (h : M.stack = S.push (.undefined m)) :
    coerce job .dereference node operand baseline M =
      .error (.fault (.of (.valueMismatch "REF" .undefined))) { M with stack := S } := by
  simp only [coerce, bind, EStateM.bind, pop_eq h]
  rfl

/-- And what assigns to one. -/
theorem assignation_undefined (h : M.stack = (S.push (.undefined m)).push v) :
    assignation job M =
      .error (.fault (.of (.valueMismatch "REF" .undefined))) { M with stack := S } := by
  have below : ({ M with stack := S.push (.undefined m) } : Machine).stack = S.push (.undefined m) :=
    rfl
  simp only [assignation, bind, EStateM.bind, pop_eq h, pop_eq below]
  rfl

theorem deprocedure_undefined (h : M.stack = S.push (.undefined m)) :
    coerce job .deprocedure node operand baseline M =
      .error (.fault (.of (.undefinedValue (job.program.modes.describe m))))
        { M with stack := S } := by
  simp only [coerce, bind, EStateM.bind, pop_eq h]
  rfl

theorem popRow_undefined (h : M.stack = S.push (.undefined m)) :
    popRow M = .error (.fault (.of (.undefinedValue "row"))) { M with stack := S } := by
  simp only [popRow, bind, EStateM.bind, pop_eq h]
  rfl

end Exec

open Value in
/-- What an undefined value causes, wherever it is consumed. It is reported as undefined, except by
the standard operators that are no queries of a row, by widening, and by dereferencing and
assigning, which all report a value of a wrong mode instead. -/
theorem undefined_consumed (job : Job) (M : Machine) (S : Array Value) (m : ModeId) :
    (∀ (op : StandardOperator) (limit : Nat) (left right : Value),
      left = .undefined m ∨ right = .undefined m →
      op.dyadic limit left right =
        if op.isRowQuery = true ∧ left.shape = .int then fault (.undefinedValue "row")
        else mismatch "operands of matching modes" left) ∧
    (∀ op : StandardOperator, op.monadic (.undefined m) =
      if op = .upb ∨ op = .lwb then fault (.undefinedValue "row")
      else mismatch "operand of a monadic operator" (.undefined m)) ∧
    (∀ node operand baseline, M.stack = S.push (.undefined m) →
      Exec.coerce job .widen node operand baseline M =
        .error (.fault (.of (.valueMismatch "INT or REAL" .undefined))) { M with stack := S } ∧
      Exec.coerce job .dereference node operand baseline M =
        .error (.fault (.of (.valueMismatch "REF" .undefined))) { M with stack := S } ∧
      Exec.coerce job .deprocedure node operand baseline M =
        .error (.fault (.of (.undefinedValue (job.program.modes.describe m))))
          { M with stack := S } ∧
      Exec.popRow M = .error (.fault (.of (.undefinedValue "row"))) { M with stack := S }) ∧
    (∀ v, M.stack = (S.push (.undefined m)).push v →
      Exec.assignation job M =
        .error (.fault (.of (.valueMismatch "REF" .undefined))) { M with stack := S }) ∧
    asInt (.undefined m) = fault (.undefinedValue "INT") ∧
    asReal (.undefined m) = fault (.undefinedValue "REAL") ∧
    asBool (.undefined m) = fault (.undefinedValue "BOOL") ∧
    (∀ store indexers, slice store (.undefined m) indexers = fault (.undefinedValue "row")) ∧
    (∀ index, field index (.undefined m) = fault (.undefinedValue "STRUCT")) ∧
    (∀ s path, read (.undefined m) (s :: path) = fault (.undefinedValue "undefined value")) ∧
    (∀ new s path,
      write new (.undefined m) (s :: path) = fault (.undefinedValue "structure or row")) ∧
    (∀ args site, Exec.callValue job (.undefined m) args site M =
      .error (.fault (.of (.undefinedValue (job.program.modes.describe m)))) M) ∧
    (∀ rest, Exec.print job (.undefined m :: rest) M =
      .error (.fault (.of (.undefinedValue (job.program.modes.describe m)))) M) := by
  refine ⟨fun op limit left right h => StandardOperator.dyadic_undefined h,
    fun op => StandardOperator.monadic_undefined, ?_, fun v h => Exec.assignation_undefined h,
    rfl, rfl, rfl, fun _ _ => rfl, fun _ => rfl, fun _ _ => rfl, ?_, fun _ _ => rfl,
    fun _ => rfl⟩
  · intro node operand baseline h
    exact ⟨Exec.widen_undefined h, Exec.dereference_undefined h, Exec.deprocedure_undefined h,
      Exec.popRow_undefined h⟩
  · intro new s path
    simp only [write]

/-- The program `(INT i; i + 1)`. -/
def unassigned : Job where
  program := {
    tree := {
      nodes := #[⟨.generator false ⟨0, 0⟩, ⟨7⟩, .dummy⟩,
        ⟨.variableDeclaration ⟨1, 0⟩ ⟨0⟩ none, .void, .dummy⟩, ⟨.separator, .void, .dummy⟩,
        ⟨.identifier ⟨1, 0⟩, ⟨7⟩, .dummy⟩, ⟨.coercion .dereference ⟨3⟩, .int, .dummy⟩,
        ⟨.literal (.int 1), .int, .dummy⟩, ⟨.formula (.standard .add) ⟨4⟩ ⟨5⟩, .int, .dummy⟩,
        ⟨.serialClause ⟨1⟩ ⟨0, 3⟩, .int, .dummy⟩, ⟨.closed ⟨1⟩ ⟨7⟩, .int, .dummy⟩]
      lists := #[⟨1⟩, ⟨2⟩, ⟨6⟩]
      modeLists := #[]
      loops := #[]
      alternatives := #[] }
    modes := ⟨Mode.primitives.push (.ref .int)⟩
    scopes := ⟨#[.standard, ⟨some ⟨0⟩, 1, #[⟨7⟩], false⟩]⟩
    labels := .new
    interner := .new
    root := ⟨8⟩
    environs := #[] }
  oracle := ModeTable.oracle ⟨Mode.primitives.push (.ref .int)⟩
  config := .default

/-- Adding to the contents of a variable that was never assigned is an internal error. -/
theorem unassigned_internal :
    ((Session.new unassigned none false).run 100).1.fault?.map (fun f => (f.cause, f.category)) =
      some (.valueMismatch "operands of matching modes" .undefined, .internal) := by
  decide +kernel

theorem unassigned_consumed :
    StandardOperator.add.dyadic 0 (.undefined .int) (.int 1) =
      Value.mismatch "operands of matching modes" (.undefined .int) ∧
    Exec.coerce unassigned .widen ⟨0⟩ ⟨0⟩ 0
        { Machine.new unassigned false with stack := #[.undefined .int] } =
      .error (.fault (.of (.valueMismatch "INT or REAL" .undefined)))
        { Machine.new unassigned false with stack := #[] } := by
  have consumed := undefined_consumed unassigned
    { Machine.new unassigned false with stack := #[.undefined .int] } #[] .int
  exact ⟨consumed.1 .add 0 _ (.int 1) (.inl rfl), (consumed.2.2.1 ⟨0⟩ ⟨0⟩ 0 rfl).1⟩

end Algol68
