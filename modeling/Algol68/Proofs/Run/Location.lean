import Algol68.Proofs.Run.Activity

/-! Where a fault is located. A fault is raised without a position and passes all that is left to do. Of
the units it leaves, the innermost tells the routines that are running there, and the innermost that has
a span tells the span; the units further out change neither. -/

namespace Algol68

open Agenda

variable {job : Job} {A : Agenda} {m m' : Machine} {f g : Fault} {n unit : NodeId}

/-- The first span of some nodes that is not a dummy. -/
def Tree.firstSpan (t : Tree) (ns : List NodeId) : Option Span :=
  (ns.map t.span).find? fun s => !s.isDummy

/-- A trace, if any routine is in it. -/
def Trace.present (t : Trace) : Option Trace := if t.isEmpty then none else some t

theorem Tree.firstSpan_cons (t : Tree) (n : NodeId) (ns : List NodeId) :
    t.firstSpan (n :: ns) = if (t.span n).isDummy then t.firstSpan ns else some (t.span n) := by
  simp only [firstSpan, List.map_cons, List.find?_cons]
  cases (t.span n).isDummy <;> rfl

/-- A fault is raised in a state, with the tasks in `A` yet to pass: by the first task, or by a clause
that took a jump and does not find its label. -/
inductive Raises (job : Job) : Agenda × Machine → Fault → Agenda → Machine → Prop where
  | task {t : Task} {rest : Agenda} {m m' : Machine} {f : Fault}
      (he : t.exec job m = .error (.fault f) m') : Raises job (t :: rest, m) f rest m'
  | landing {t : Task} {before after : Agenda} {c : LabelledClause} {j : Jump} {m m' : Machine}
      {f : Fault} (he : t.exec job m = .error (.jump j) m') (hb : ∀ t ∈ before, ¬ t.takes j)
      (hc : c.takes j) (hr : c.resume job j.target = .error f) :
      Raises job (t :: (before ++ .labelled c :: after), m) f after (c.caught j (m'.undo before))

theorem LabelledClause.resume_fresh {c : LabelledClause} {target : Option NodeId}
    (h : c.resume job target = .error f) : f.span = none ∧ f.trace = none := by
  obtain ⟨label, rfl⟩ := resume_eq_error h
  exact ⟨rfl, rfl⟩

theorem Raises.fresh {y : Agenda × Machine} (h : Raises job y f A m) :
    f.span = none ∧ f.trace = none := by
  cases h with
  | task he => exact (Exec.wp_error (Exec.exec_teaches _) he).1
  | landing _ _ _ hr => exact LabelledClause.resume_fresh hr

theorem Escapes.exists_raises {x : Agenda × Machine} (h : Escapes job x (.fault f) m') :
    ∃ y g A m₁, Runs job x y ∧ Raises job y g A m₁ ∧
      unwind job (.fault g) A m₁ = .escaped (.fault f) m' := by
  obtain ⟨t, rest, m₀, m₁, s, hr, he, hu⟩ := h
  cases s with
  | fault g => exact ⟨_, g, rest, m₁, hr, .task he, hu⟩
  | jump j =>
    rcases exists_first_takes j rest with hn | ⟨before, c, after, rfl, hb, hc⟩
    · rw [unwind_jump_of_not_takes hn] at hu
      cases hu
    · rw [unwind_jump_of_takes hb hc] at hu
      split at hu
      · cases hu
      · next g hg => exact ⟨_, g, after, _, hr, .landing he hb hc hg, hu⟩

/-! A fault on its way. Only where it leaves a unit does it change, and not once it has a span. -/

theorem unwind_of_ends_none {t : Task} (ht : t.ends = none) (f : Fault) (A : Agenda) (m : Machine) :
    unwind job (.fault f) (t :: A) m = unwind job (.fault f) A (t.undo m) := by
  cases t with
  | settle | within => cases ht
  | _ => rfl

theorem unwind_of_ends {t : Task} (ht : t.ends = some n) (f : Fault) (A : Agenda) (m : Machine) :
    unwind job (.fault f) (t :: A) m =
      unwind job (.fault (f.locate (job.program.tree.span n) m.calls)) A m := by
  cases t with
  | settle | within =>
    cases ht
    rfl
  | _ => cases ht

theorem Task.undo_of_ends {t : Task} (ht : t.ends = some n) (m : Machine) : t.undo m = m := by
  cases t with
  | settle | within => rfl
  | _ => cases ht

theorem unwind_of_active_eq_nil (h : A.active = []) (f : Fault) (m : Machine) :
    unwind job (.fault f) A m = .escaped (.fault f) (m.undo A) := by
  induction A generalizing m with
  | nil => rfl
  | cons t A ih =>
    have ht := active_eq_nil_iff.mp h t (List.mem_cons_self ..)
    rw [active_cons_of_none ht] at h
    rw [unwind_of_ends_none ht, ih h, Machine.undo_cons]

theorem unwind_of_located (h : f.span.isSome) (A : Agenda) (m : Machine) :
    unwind job (.fault f) A m = .escaped (.fault f) (m.undo A) := by
  induction A generalizing m with
  | nil => rfl
  | cons t A ih =>
    cases ht : t.ends with
    | none => rw [unwind_of_ends_none ht, ih, Machine.undo_cons]
    | some n =>
      have same : f.locate (job.program.tree.span n) m.calls = f := by simp [Fault.locate, h]
      rw [unwind_of_ends ht, same, ih, Machine.undo_cons, Task.undo_of_ends ht]

theorem Task.undo_calls {t : Task} (h : m.calls = []) : (t.undo m).calls = [] := by
  cases t with
  | endCall => simp [Task.undo, h]
  | _ => exact h

/-- A fault without a span takes the first there is. Its trace is settled, or there is nothing to trace. -/
theorem unwind_of_unlocated (hf : f.span = none) (ht : f.trace.isSome ∨ m.calls = []) (A : Agenda) :
    unwind job (.fault f) A m = .escaped
      (.fault { f with span := job.program.tree.firstSpan A.active }) (m.undo A) := by
  induction A generalizing m with
  | nil =>
    rw [active_nil, Tree.firstSpan, List.map_nil, List.find?_nil, ← hf]
    rfl
  | cons t A ih =>
    have calls : f.trace.isSome ∨ (t.undo m).calls = [] := ht.imp_right Task.undo_calls
    cases hn : t.ends with
    | none => rw [unwind_of_ends_none hn, active_cons_of_none hn, ih calls, Machine.undo_cons]
    | some n =>
      have settled : (if f.trace.isNone && !m.calls.isEmpty then some m.calls else f.trace) =
          f.trace := by
        rcases ht with ht | ht
        · simp [Option.isNone_eq_false_iff.mpr ht]
        · simp [ht]
      have located : f.locate (job.program.tree.span n) m.calls = { f with
          span := if (job.program.tree.span n).isDummy then none
            else some (job.program.tree.span n) } := by
        simp only [Fault.locate, hf, Option.isSome_none, Bool.false_eq_true, if_false, settled]
      rw [unwind_of_ends hn, located, active_cons_of_some hn, Tree.firstSpan_cons,
        Machine.undo_cons, Task.undo_of_ends hn]
      split
      · rw [← hf]
        exact ih ht
      · exact unwind_of_located rfl A m

/-- What becomes of a fault that was just raised: the innermost unit that it leaves gives it the routines
running there as its trace, and it takes the first span of all. -/
theorem unwind_of_fresh (hs : f.span = none) (ht : f.trace = none) {inner after : Agenda} {t : Task}
    (hi : inner.active = []) (hn : t.ends = some n) (m : Machine) :
    unwind job (.fault f) (inner ++ t :: after) m = .escaped
      (.fault { f with
        span := job.program.tree.firstSpan (n :: after.active)
        trace := (m.undo inner).calls.present }) (m.undo (inner ++ t :: after)) := by
  have located : f.locate (job.program.tree.span n) (m.undo inner).calls = { f with
      span := if (job.program.tree.span n).isDummy then none
        else some (job.program.tree.span n)
      trace := (m.undo inner).calls.present } := by
    simp only [Fault.locate, hs, ht, Trace.present]
    cases (m.undo inner).calls <;> rfl
  rw [unwind_append, unwind_of_active_eq_nil hi, Machine.undo_append, Machine.undo_cons,
    Task.undo_of_ends hn]
  refine (unwind_of_ends hn _ _ _).trans ?_
  rw [located, Tree.firstSpan_cons]
  split
  · refine unwind_of_unlocated rfl ?_ after
    cases (m.undo inner).calls with
    | nil => exact .inr rfl
    | cons a calls => exact .inl rfl
  · exact unwind_of_located rfl after _

/-- The unit that a run evaluates is being evaluated wherever a fault is raised. -/
theorem Raises.exists_end {y : Agenda × Machine} (hr : Runs job ([.unit unit], m) y)
    (h : Raises job y f A m') : ∃ inner e, A = inner ++ [e] ∧ e.ends = some unit := by
  -- the task in front fails, so it is neither the first of the run nor the end of an evaluation
  have fails : ∃ t rest s m₁, y.1 = t :: rest ∧ t.exec job y.2 = .error s m₁ ∧
      (A = rest ∨ ∃ before c, rest = before ++ .labelled c :: A) := by
    cases h with
    | task he => exact ⟨_, _, _, _, rfl, he, .inl rfl⟩
    | landing he _ _ _ => exact ⟨_, _, _, _, rfl, he, .inr ⟨_, _, rfl⟩⟩
  obtain ⟨t, rest, s, m₁, hy, he, hA⟩ := fails
  rcases Relation.ReflTransGen.cases_head hr with rfl | ⟨z, hz, hr⟩
  · obtain ⟨rfl, -⟩ := List.cons.inj hy
    exact (Exec.wp_error (@Exec.unit_teaches job m unit) he).elim
  · rcases Runs.exists_end hz hr with hnil | ⟨inner, e, hinner, hend⟩
    · cases hnil.symm.trans hy
    · have split : t :: rest = inner ++ [e] := hy.symm.trans hinner
      cases inner with
      | nil =>
        cases split
        obtain ⟨m₂, hok⟩ := Task.exec_of_ends job hend y.2
        cases hok.symm.trans he
      | cons t' inner =>
        obtain ⟨rfl, hrest⟩ := List.cons.inj split
        rcases hA with rfl | ⟨before, c, rfl⟩
        · exact ⟨inner, e, hrest, hend⟩
        · obtain ⟨C, hC⟩ := Agenda.exists_of_labelled hend hrest
          exact ⟨C, e, hC, hend⟩

/-- The tasks that a fault has yet to pass are the last ones of the state that it is raised in. -/
theorem Raises.suffix {y : Agenda × Machine} (h : Raises job y f A m') : ∃ passed, y.1 = passed ++ A := by
  cases h with
  | @task t => exact ⟨[t], rfl⟩
  | @landing t before after c => exact ⟨t :: (before ++ [.labelled c]), by simp⟩

theorem Agenda.exists_innermost {A : Agenda} (h : A.active ≠ []) :
    ∃ (inner : Agenda) (t : Task) (after : Agenda) (n : NodeId),
      A = inner ++ t :: after ∧ inner.active = [] ∧ t.ends = some n := by
  induction A with
  | nil => exact absurd rfl h
  | cons t A ih =>
    cases ht : t.ends with
    | some n => exact ⟨[], t, A, n, rfl, rfl, ht⟩
    | none =>
      rw [active_cons_of_none ht] at h
      obtain ⟨inner, u, after, n, rfl, hi, hu⟩ := ih h
      exact ⟨t :: inner, u, after, n, rfl, by rw [active_cons_of_none ht, hi], hu⟩

/-- A fault that ends the evaluation of a unit, of any program and in any machine, was raised in a state on
the way. There the evaluations in `A` were going on: those of the state but for the ones that a jump had
left to find that its label is missing. The fault passes unchanged to the end of the innermost of
them; it has the first span of them all, the routines running where the innermost is left, and the
cause and the notes it was raised with. -/
theorem faults_located {steps : Nat}
    (h : drive job steps [.unit unit] m = .escaped (.fault f) m') :
    ∃ y g A m₁, Runs job ([.unit unit], m) y ∧ Raises job y g A m₁ ∧
      (∀ n after, (∃ before t, A = before ++ t :: after ∧ t.ends = some n) ↔
        Evaluates job ([.unit unit], m) n after y ∧ after.length < A.length) ∧
      A.active.getLast? = some unit ∧
      f.span = job.program.tree.firstSpan A.active ∧
      (∃ (inner : Agenda) (t : Task) (after : Agenda) (n : NodeId) (m₂ : Machine),
        A = inner ++ t :: after ∧ inner.active = [] ∧ t.ends = some n ∧
        unwind job (.fault g) inner m₁ = .escaped (.fault g) m₂ ∧ f.trace = m₂.calls.present) ∧
      f.cause = g.cause ∧ f.notes = g.notes := by
  obtain ⟨y, g, A, m₁, hr, hraise, hu⟩ := (escapes_of_escaped h).exists_raises
  obtain ⟨passed, hy⟩ := hraise.suffix
  obtain ⟨inner', e, hA, he⟩ := hraise.exists_end hr
  have last : A.active = active inner' ++ [unit] := by
    rw [hA, active_append, active_cons_of_some he, active_nil]
  obtain ⟨inner, t, after, n, hsplit, hi, hn⟩ := Agenda.exists_innermost (A := A) (by simp [last])
  have active : A.active = n :: after.active := by
    rw [hsplit, active_append, hi, active_cons_of_some hn, List.nil_append]
  obtain ⟨hs, ht⟩ := hraise.fresh
  rw [hsplit, unwind_of_fresh hs ht hi hn] at hu
  obtain ⟨rfl, -⟩ : _ = f ∧ _ = m' := by simpa using hu
  refine ⟨y, g, A, m₁, hr, hraise, fun k rest => ?_, by rw [last, List.getLast?_concat],
    by rw [active], ?_, rfl, rfl⟩
  · rw [evaluates_iff hr]
    constructor
    · rintro ⟨before, u, hbefore, hend⟩
      refine ⟨⟨passed ++ before, u, by rw [hy, hbefore, List.append_assoc], hend⟩, ?_⟩
      rw [hbefore, List.length_append, List.length_cons]
      omega
    · rintro ⟨⟨before, u, hbefore, hend⟩, hlt⟩
      have both : passed ++ A = before ++ u :: rest := hy.symm.trans hbefore
      rcases List.append_eq_append_iff.mp both with ⟨C, -, hC⟩ | ⟨C, -, hC⟩
      · exact ⟨C, u, hC, hend⟩
      · cases C with
        | nil => exact ⟨[], u, hC.symm, hend⟩
        | cons v C =>
          have hrest : rest = C ++ A := (List.cons.inj hC).2
          rw [hrest, List.length_append] at hlt
          omega
  · exact ⟨inner, t, after, n, _, hsplit, hi, hn, unwind_of_active_eq_nil hi _ _, rfl⟩

/-- The program `PROC VOID (VOID: ASSERT FALSE)`, called in a cast. The routine has no spans. -/
def ambush : Job where
  program := {
    tree := {
      nodes := #[⟨.literal (.bool false), .bool, .dummy⟩, ⟨.assertion ⟨0⟩, .void, .dummy⟩,
        ⟨.routineText ⟨1⟩ 0 ⟨1⟩, ⟨20⟩, .dummy⟩, ⟨.call ⟨2⟩ ⟨0, 0⟩, .void, ⟨5, 9⟩⟩,
        ⟨.cast ⟨3⟩, .void, ⟨0, 12⟩⟩]
      lists := #[]
      modeLists := #[]
      loops := #[]
      alternatives := #[] }
    modes := .new
    scopes := ⟨#[.standard, ⟨some .standard, 1, #[], false⟩]⟩
    labels := ⟨#[]⟩
    interner := .new
    root := ⟨4⟩
    environs := #[] }
  oracle := ModeTable.oracle .new
  config := .default

/-- The assertion that `ambush` runs into is located at the call. -/
theorem ambush_located : ∃ f m' A, drive ambush 20 [.unit ⟨4⟩] (.new ambush false) =
      .escaped (.fault f) m' ∧ f.cause = .assertionFailed ∧
    f.span = ambush.program.tree.firstSpan A ∧ A.getLast? = some ⟨4⟩ ∧ f.span = some ⟨5, 9⟩ ∧
    f.trace = some [⟨some ⟨2⟩, ⟨5, 9⟩⟩] := by
  obtain ⟨f, m', h, hc, hs, ht⟩ : ∃ f m',
      drive ambush 20 [.unit ⟨4⟩] (.new ambush false) = .escaped (.fault f) m' ∧
      f.cause = .assertionFailed ∧ f.span = some ⟨5, 9⟩ ∧
      f.trace = some [⟨some ⟨2⟩, ⟨5, 9⟩⟩] := ⟨_, _, rfl, rfl, rfl, rfl⟩
  obtain ⟨-, -, A, -, -, -, -, last, span, -⟩ := faults_located h
  exact ⟨f, m', A.active, h, hc, span, last, hs, ht⟩

end Algol68
