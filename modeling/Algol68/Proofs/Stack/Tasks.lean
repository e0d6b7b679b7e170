import Algol68.Machine.Unit
import Algol68.Proofs.Frames.Follow
import Algol68.Proofs.Stack.Shift

/-! Every task of a program whose modes agree takes the values it is said to take and leaves, once
the work it puts in its place is done, the values it is said to leave. -/

namespace Algol68.Exec

open Agenda (Balanced)

variable {job : Job} {P : List Value}

/-! The clauses that choose. -/

theorem orUndefined_balances {mode : ModeId} {unit : Option NodeId}
    (h : job.program.tree.AllYieldAs mode unit.toList) :
    Balances job.program.tree P (orUndefined job mode unit) 0 mode.worth := by
  cases unit with
  | none => exact .shifts (pushUndefined_shifts job mode)
  | some n => exact .unit (ModeId.worth_congr (h n (by simp)))

theorem branch_balances {thenPart : NodeId} {elsePart : Option NodeId} {mode : ModeId}
    (h : (Task.branch thenPart elsePart mode).Fits job.program.tree) :
    Balances job.program.tree P ((Task.branch thenPart elsePart mode).exec job) 1 mode.worth := by
  refine .bind 0 popBool_shifts (fun v => ?_) (by omega) (by omega)
  split
  · exact .unit (ModeId.worth_congr (h thenPart (by simp)))
  · exact orUndefined_balances fun n hn => h n (List.mem_cons_of_mem _ hn)

theorem choose_balances {alternatives : List NodeId} {outPart : Option NodeId} {mode : ModeId}
    (h : (Task.choose alternatives outPart mode).Fits job.program.tree) :
    Balances job.program.tree P ((Task.choose alternatives outPart mode).exec job) 1 mode.worth := by
  refine .bind 0 popInt_shifts (fun k => ?_) (by omega) (by omega)
  refine orUndefined_balances fun n hn => h n ?_
  rw [Option.mem_toList] at hn
  rw [List.mem_append, Option.mem_toList]
  cases hk : nth alternatives k with
  | none =>
    rw [hk] at hn
    exact .inr hn
  | some u =>
    rw [hk] at hn
    cases hn
    exact .inl (nth_mem hk)

theorem accepting_unit {variant : ModeId} {ns : List NodeId} {a : Alternative} {mode : ModeId}
    (h : accepting job variant ns = .ok (some (a, mode))) :
    a.unit ∈ job.program.tree.conformityUnits ns := by
  obtain ⟨n, hn, id, hk, rfl⟩ := accepting_mem h
  exact List.mem_filterMap.mpr ⟨n, hn, by rw [hk]⟩

theorem conform_balances {alternatives : List NodeId} {outPart : Option NodeId} {mode : ModeId}
    (h : (Task.conform alternatives outPart mode).Fits job.program.tree) :
    Balances job.program.tree P (conform job alternatives outPart mode) 1 mode.worth := by
  refine .bind 0 pop_shifts (fun v => ?_) (by omega) (by omega)
  split
  · next variant payload =>
    apply Balances.lift (fun f hf => by rw [(accepting_error hf).choose_spec]; rfl)
    intro chosen hc
    split
    · next a specifier =>
      apply Balances.neutral (enter_neutral job a.scope)
      intro before
      apply Balances.work
      intro d e hd he
      have unit : (job.program.tree.mode a.unit).worth = mode.worth :=
        ModeId.worth_congr (h a.unit (List.mem_append_left _ (accepting_unit hc)))
      have bound (v : Value) : Balanced job.program.tree P.length d
          (a.binding.toList.map (Task.store · v)) d := by
        cases a.binding with
        | none => exact .refl
        | some slot => exact .cons (by simp) trivial ⟨hd, rfl⟩ .refl
      apply (bound _).append
      apply Balanced.unit hd
      rw [unit]
      exact .leave (Nat.le_add_right_of_le hd) (Balanced.nil_iff.mpr (by omega))
    · split
      · exact .fails_bind rfl
      · exact orUndefined_balances fun n hn => h n (List.mem_append_right _ hn)
  · exact .fails rfl
  · exact .mismatch

/-! Loops. -/

theorem enterLoop_balances {i : Iteration} (h : i.parts.Fits job.program.tree) :
    Balances job.program.tree P (enterLoop job i) 0 0 := by
  apply Balances.neutral (enter_neutral job i.parts.scope)
  intro before
  apply Balances.work
  intro d e hd he
  cases he
  exact .cons (by simp) h ⟨hd, rfl⟩ (.leave hd .refl)

theorem enterBody_balances {i : Iteration} (h : i.parts.Fits job.program.tree) :
    Balances job.program.tree P (enterBody job i) 0 0 := by
  apply Balances.neutral (enter_neutral job i.parts.bodyScope)
  intro before
  apply Balances.work
  intro d e hd he
  cases he
  exact .cons (by simp) h ⟨hd, rfl⟩ (.leave hd .refl)

/-- The tasks of an iteration leave nothing. -/
theorem iteration_balanced {i : Iteration} (h : i.parts.Fits job.program.tree) {d : Nat}
    (hd : P.length ≤ d) : Balanced job.program.tree P.length d (iterate.iteration i) d := by
  unfold iterate.iteration
  split
  · next enquiry hu =>
    refine Balanced.clause hd (by simp) ?_
    rw [h.doPart]
    apply Balanced.enquiry hd (h.untilPart enquiry (by simp [hu]))
    exact .cons (by simp) h ⟨Nat.add_le_add_right hd 1, rfl⟩ .refl
  · refine Balanced.clause hd (by simp) ?_
    rw [h.doPart]
    exact .cons (by simp) h ⟨hd, rfl⟩ .refl

theorem setCounter_neutral (i : Iteration) : Neutral (setCounter i) := by
  unfold setCounter
  split
  · exact store_neutral _ _
  · exact pure_neutral ()

theorem renewBody_neutral (i : Iteration) : Neutral (renewBody job i) := by
  unfold renewBody
  split
  · exact pure_neutral ()
  · exact modify_neutral fun _ => rfl

theorem iterate_balances {i : Iteration} (h : i.parts.Fits job.program.tree) :
    Balances job.program.tree P (iterate job i) 0 0 := by
  unfold iterate
  split
  · apply Balances.neutral (setCounter_neutral i)
    intro _
    apply Balances.neutral (renewBody_neutral i)
    intro _
    apply Balances.work
    intro d e hd he
    cases he
    split
    · next enquiry hw =>
      apply Balanced.enquiry hd (h.whilePart enquiry (by simp [hw]))
      exact .cons (by simp) h ⟨Nat.add_le_add_right hd 1, rfl⟩ .refl
    · exact iteration_balanced (i := { i with first := false }) h hd
  · exact .done

theorem afterWhile_balances {i : Iteration} (h : i.parts.Fits job.program.tree) :
    Balances job.program.tree P (afterWhile i) 1 0 := by
  apply Balances.bind 0 popBool_shifts _ (by omega) (by omega)
  intro v
  apply Balances.work
  intro d e hd he
  cases he
  split
  · exact iteration_balanced h hd
  · exact .refl

theorem afterUntil_balances {i : Iteration} (h : i.parts.Fits job.program.tree) :
    Balances job.program.tree P (afterUntil i) 1 0 := by
  apply Balances.bind 0 popBool_shifts _ (by omega) (by omega)
  intro v
  apply Balances.work
  intro d e hd he
  cases he
  split
  · exact .refl
  · exact .cons (by simp) h ⟨hd, rfl⟩ .refl

theorem advance_balances {i : Iteration} (h : i.parts.Fits job.program.tree) :
    Balances job.program.tree P (advance i) 0 0 := by
  have next (j : Iteration) (hj : j.parts.Fits job.program.tree) :
      Balances job.program.tree P (pure [.iterate j]) 0 0 := by
    apply Balances.work
    intro d e hd he
    cases he
    exact .cons (by simp) hj ⟨hd, rfl⟩ .refl
  unfold advance
  split
  · split
    · exact next _ h
    · exact .fails rfl
  · exact next i h

/-! Calls. -/

theorem callStandard_balances (args : List Value) (p : StandardProcedure) :
    Balances job.program.tree P (callStandard args p) 0 0 := by
  cases p with
  | print =>
    apply Balances.work
    intro d e hd he
    cases he
    exact .cons (by simp) trivial ⟨hd, rfl⟩ .refl
  | newline => exact .neutral (modify_neutral fun _ => rfl) fun _ => .done

theorem print_balances (values : List Value) :
    Balances job.program.tree P (print job values) 0 0 := by
  have next (vs : List Value) : Balances job.program.tree P (pure [.print vs]) 0 0 := by
    apply Balances.work
    intro d e hd he
    cases he
    exact .cons (by simp) trivial ⟨hd, rfl⟩ .refl
  have emitted (f : Transput → Transput) (vs : List Value) :
      Balances job.program.tree P (do transput f; return [.print vs]) 0 0 :=
    .neutral (modify_neutral fun _ => rfl) fun _ => next vs
  cases values with
  | nil => exact .done
  | cons v rest =>
    simp only [print]
    split
    · exact next _
    · exact next _
    · exact next _
    · exact .neutral (read_neutral _) fun _ => next _
    · exact emitted _ _
    · exact next _
    · exact .mismatch
    · exact .fails rfl
    all_goals exact emitted _ _

theorem callRoutine_balances {text : NodeId} {environ : FrameHandle} {args : List Value}
    {site : NodeId} (h : (Value.procedure (.routine text environ)).YieldsAt job.program.tree site) :
    Balances job.program.tree P (callRoutine job text environ args site) 0
      (job.program.tree.mode site).worth := by
  refine .neutral get_neutral fun m => ?_
  by_cases hl : m.frames.isLive environ = true
  · simp only [hl, Bool.not_true, Bool.false_eq_true, if_false]
    split
    · next scope params body hk =>
      refine .neutral (modify_neutral fun _ => rfl) fun _ => ?_
      refine .neutral (modify_neutral fun _ => rfl) fun _ => .work fun d e hd he => ?_
      rw [← ModeId.worth_congr (h scope params body hk)] at he
      exact .cons (by simp) trivial ⟨hd, he⟩ 
        (.cons (by simp) trivial ⟨by simp only [Task.uses, Agenda.base_nil]; omega, rfl⟩ .refl)
    · exact .fails rfl
  · simp only [hl, Bool.not_false, if_true]
    exact .fails_bind rfl

theorem callValue_balances {callee : Value} {args : List Value} {site : NodeId}
    (h : callee.YieldsAt job.program.tree site) :
    Balances job.program.tree P (callValue job callee args site) 0
      (job.program.tree.mode site).worth := by
  unfold callValue
  split
  · have hv : job.program.tree.mode site = .void := h
    rw [hv]
    exact callStandard_balances _ _
  · exact callRoutine_balances h
  · exact .fails rfl
  · exact .fails rfl
  · exact .mismatch

theorem enterRoutine_balances (scope : ScopeId) (environ : Nat) (args : List Value)
    (body : NodeId) :
    Balances job.program.tree P (enterRoutine job scope environ args body) 0
      (job.program.tree.mode body).worth := by
  refine .neutral (enterAt_neutral job scope environ) fun before => ?_
  refine .neutral (modify_neutral fun _ => rfl) fun _ => .work fun d e hd he => ?_
  obtain rfl : e = d + (job.program.tree.mode body).worth := he
  exact .unit hd (.leave (Nat.le_add_right_of_le hd) .refl)

theorem arguments_balances {args : List NodeId} {site : NodeId}
    (h : job.program.tree.AllYield args) :
    Balances job.program.tree P (arguments args site) 1 (job.program.tree.mode site).worth := by
  apply Balances.bind 0 pop_shifts _ (by omega) (by omega)
  intro callee
  apply Balances.work
  intro d e hd he
  apply Balanced.units hd h
  refine .cons (by simp) trivial ?_ .refl
  simp only [Task.Moves, Task.uses, Task.leaves, Agenda.base_nil]
  omega

/-! Gathering integers. -/

theorem conclude_balances {purpose : Purpose} (h : purpose.Fits job.program.tree)
    (found : List (Option Int64)) :
    Balances job.program.tree P (conclude job found purpose) 0 purpose.leaves := by
  cases purpose with
  | loop parts =>
    apply Balances.work
    intro d e hd he
    cases he
    exact .cons (by simp) h ⟨hd, rfl⟩ .refl
  | generate target =>
    apply Balances.neutral (lift_neutral (Value.initial_ordinary _ _ _ _))
    intro contents
    apply Balances.neutral (allocate_neutral contents)
    intro name
    exact .shifts (push_shifts job _)
  | slice base trimmers =>
    apply Balances.neutral get_neutral
    intro m
    simp only
    split
    · exact .shifts (push_shifts job _)
    · next f hf =>
      apply Balances.of_error
      intro m
      have := (Value.slice_ordinary _ _ _).cause hf
      exact ⟨rfl, (Signal.clean_fault _).mpr (Cause.ofStack_of_ordinary this)⟩
  | diagonal operand | matrix operand =>
    apply Balances.work
    intro d e hd he
    cases he
    refine .unit hd ?_
    rw [ModeId.worth_of_ne h]
    exact .cons (by simp) trivial ⟨Nat.add_le_add_right hd 1, rfl⟩ .refl

theorem gather_balances (purpose : Purpose) (h : purpose.Fits job.program.tree)
    {wanted : List (Option NodeId)} (hw : job.program.tree.AllYield (presentUnits wanted))
    (found : List (Option Int64)) :
    Balances job.program.tree P (gather job purpose found wanted) 0 purpose.leaves := by
  induction wanted generalizing found with
  | nil => exact conclude_balances h found
  | cons o wanted ih =>
    cases o with
    | none => exact ih (fun n hn => hw n (by simpa [presentUnits] using hn)) _
    | some n =>
      have yields : job.program.tree.mode n ≠ .void := hw n (by simp [presentUnits])
      have rest : job.program.tree.AllYield (presentUnits wanted) :=
        fun k hk => hw k (List.mem_cons_of_mem n hk)
      apply Balances.work
      intro d e hd he
      refine .unit hd ?_
      rw [ModeId.worth_of_ne yields]
      refine .cons (by simp) ⟨h, rest⟩ ⟨Nat.add_le_add_right hd 1, ?_⟩ .refl
      simp only [Task.uses, Task.leaves]
      omega

theorem take_balances {g : Gathering} (h : (Task.take g).Fits job.program.tree) :
    Balances job.program.tree P (take job g) 1 g.purpose.leaves :=
  .bind 0 popInt_shifts (fun _ => gather_balances g.purpose h.1 h.2 _) (by omega) (by omega)

theorem indexers_balances {nodes : List NodeId}
    (h : (Task.indexers nodes).Fits job.program.tree) :
    Balances job.program.tree P (indexers job nodes) 1 1 :=
  .bind 0 pop_shifts (fun base => gather_balances (.slice base _) trivial h [])
    (by omega) (by omega)

/-! Operations on the values at the top of the stack. -/

theorem declare_balances {slot : Slot} {init : Option NodeId}
    (h : (Task.declare slot init).Fits job.program.tree) :
    Balances job.program.tree P (declare slot init) 1 0 := by
  refine .bind 0 pop_shifts (fun v => ?_) (by omega) (by omega)
  refine .neutral (lift_neutral v.asName_ordinary) fun name => ?_
  refine .neutral (store_neutral slot v) fun _ => ?_
  cases init with
  | none => exact .done
  | some n =>
    apply Balances.work
    intro d e hd he
    cases he
    refine .unit hd ?_
    rw [ModeId.worth_of_ne (h n (by simp))]
    exact .cons (by simp) trivial ⟨Nat.add_le_add_right hd 1, rfl⟩ .refl

theorem assignation_shifts : Shifts P (assignation job) 2 1 := by
  refine .bind 1 pop_shifts (fun v => ?_) (by omega) (by omega)
  refine .bind 0 pop_shifts (fun destination => ?_) (by omega) (by omega)
  refine .neutral (lift_neutral destination.asName_ordinary) fun name => ?_
  exact .neutral (assign_neutral name v) fun _ => push_shifts job destination

theorem onTop_shifts {f : Value → Checked Value} (h : ∀ v, Ordinary (f v)) :
    Shifts P (do let v ← pop; push job (← lift (f v))) 1 1 :=
  .bind 0 pop_shifts (fun v => .neutral (lift_neutral (h v)) fun w => push_shifts job w)
    (by omega) (by omega)

theorem onTopTwo_shifts {f : Value → Value → Checked Value} (h : ∀ v w, Ordinary (f v w)) :
    Shifts P (do let right ← pop; let left ← pop; push job (← lift (f left right))) 2 1 :=
  .bind 1 pop_shifts (fun right => onTop_shifts fun left => h left right) (by omega) (by omega)

theorem onTop_balances {f : Value → Checked Value} (h : ∀ v, Ordinary (f v)) :
    Balances job.program.tree P (do push job (← lift (f (← pop))); return []) 1 1 :=
  .bind 0 pop_shifts (fun v => .neutral (lift_neutral (h v)) fun w => .shifts (push_shifts job w))
    (by omega) (by omega)

theorem onRow_balances {f : Row Value → Checked (Row Value)} (h : ∀ r, Ordinary (f r)) :
    Balances job.program.tree P (do push job (.row (← lift (f (← popRow)))); return []) 1 1 :=
  .bind 0 popRow_shifts (fun r => .neutral (lift_neutral (h r)) fun w => .shifts (push_shifts job _))
    (by omega) (by omega)

theorem taking_balances {f : Value → Exec Unit} (h : ∀ v, Neutral (f v)) :
    Balances job.program.tree P (do f (← pop); return []) 1 0 :=
  .bind 0 pop_shifts (fun v => .neutral (h v) fun _ => .done) (by omega) (by omega)

theorem assert_balances : Balances job.program.tree P (Task.assert.exec job) 1 0 := by
  refine .bind 0 popBool_shifts (fun v => ?_) (by omega) (by omega)
  split
  · exact .done
  · exact .fails rfl

theorem identity_shifts (positive : Bool) : Shifts P (identity job positive) 2 1 :=
  .bind 1 pop_shifts (fun right => .bind 0 pop_shifts (fun left =>
    .neutral (lift_neutral (sameName_ordinary left right)) fun same => push_shifts job _)
    (by omega) (by omega)) (by omega) (by omega)

theorem monadic_balances (op : StandardOperator) :
    Balances job.program.tree P (monadic job op) 1 1 := by
  have plain (v : Value) :
      Balances job.program.tree P (do push job (← lift (op.monadic v)); return []) 0 1 :=
    .neutral (lift_neutral (op.monadic_ordinary v)) fun w => .shifts (push_shifts job w)
  have through (n : Name) : Balances job.program.tree P
      (do push job (← read n); return [.monadic op]) 0 1 := by
    refine .neutral (read_neutral n) fun v => .bind 1 (push_shifts job v) (fun _ => ?_) (by omega)
      (by omega)
    exact .work fun d e hd he => .cons (by simp) trivial ⟨hd, he⟩ .refl
  refine .bind 0 pop_shifts (fun v => ?_) (by omega) (by omega)
  split
  · exact through _
  · exact through _
  · exact plain _

/-- The coercions that take a value and leave one. -/
theorem coerce_balances (kind : CoercionKind) (hv : kind ≠ .void) (hd : kind ≠ .deprocedure)
    (node operand : NodeId) (baseline : Nat) :
    Balances job.program.tree P (coerce job kind node operand baseline) 1 1 := by
  have pushed (v : Value) : Balances job.program.tree P (do push job v; return []) 0 1 :=
    .shifts (push_shifts job v)
  cases kind with
  | void => exact absurd rfl hv
  | deprocedure => exact absurd rfl hd
  | dereference =>
    refine .bind 0 pop_shifts (fun v => ?_) (by omega) (by omega)
    exact .neutral (lift_neutral v.asName_ordinary) fun n => .neutral (read_neutral n) pushed
  | unite =>
    refine .bind 0 pop_shifts (fun v => ?_) (by omega) (by omega)
    split <;> exact pushed _
  | widen =>
    refine .bind 0 pop_shifts (fun v => ?_) (by omega) (by omega)
    split
    · exact pushed _
    · exact pushed _
    · exact .mismatch_bind
  | row => exact .bind 0 pop_shifts (fun v => pushed _) (by omega) (by omega)

theorem shortCircuit_balances {right : NodeId} (h : job.program.tree.mode right ≠ .void)
    (conjunction : Bool) :
    Balances job.program.tree P (shortCircuit job right conjunction) 1 1 := by
  refine .bind 0 popBool_shifts (fun left => ?_) (by omega) (by omega)
  split
  · exact .unit (ModeId.worth_of_ne h)
  · exact .shifts (push_shifts job _)

end Algol68.Exec
