import Algol68.Proofs.Machine.Outcome
import Algol68.Proofs.Run.Step

/-! How a signal passes the agenda. On its way it undoes what the tasks it passes would have
undone: it closes their frames and ends their calls. A fault passes everything; a jump passes
everything up to the first clause that takes it. -/

namespace Algol68

variable {job : Job}

/-- What a signal that passes a task does to the machine. -/
def Task.undo (m : Machine) : Task → Machine
  | .leave depth => { m with frames := m.frames.truncate depth }
  | .endCall => { m with calls := m.calls.tail }
  | _ => m

/-- What a signal that passes some tasks does to the machine. -/
def Machine.undo (m : Machine) (A : Agenda) : Machine := A.foldl Task.undo m

/-- Whether a running clause takes a jump. -/
def LabelledClause.takes (c : LabelledClause) (j : Jump) : Prop :=
  j.owner = c.serial ∧ j.frame = c.activation

/-- Whether a task is a running clause that takes a jump. -/
def Task.takes (j : Jump) : Task → Prop
  | .labelled c => c.takes j
  | _ => False

/-- The machine in which a clause that took a jump goes on. -/
def LabelledClause.caught (c : LabelledClause) (j : Jump) (m : Machine) : Machine := { m with
  counters := m.counters.map fun n => { n with jumps := n.jumps + 1 }
  frames := m.frames.truncate (c.frame + 1)
  stack := m.stack.shrink j.baseline }

@[simp] theorem Machine.undo_nil (m : Machine) : m.undo [] = m := rfl

@[simp] theorem Machine.undo_cons (m : Machine) (t : Task) (A : Agenda) :
    m.undo (t :: A) = (t.undo m).undo A := rfl

theorem Machine.undo_append (m : Machine) (A B : Agenda) :
    m.undo (A ++ B) = (m.undo A).undo B := List.foldl_append ..

@[simp] theorem Machine.undo_stack (m : Machine) (A : Agenda) : (m.undo A).stack = m.stack := by
  induction A generalizing m with
  | nil => rfl
  | cons t A ih =>
    rw [Machine.undo_cons, ih]
    cases t <;> rfl

@[simp] theorem Machine.undo_nextSerial (m : Machine) (A : Agenda) :
    (m.undo A).frames.nextSerial = m.frames.nextSerial := by
  induction A generalizing m with
  | nil => rfl
  | cons t A ih =>
    rw [Machine.undo_cons, ih]
    cases t <;> rfl

@[simp] theorem Machine.undo_annotations (m : Machine) (A : Agenda) :
    (m.undo A).annotations = m.annotations := by
  induction A generalizing m with
  | nil => rfl
  | cons t A ih =>
    rw [Machine.undo_cons, ih]
    cases t <;> rfl

/-- A fault passes the whole agenda; on its way only its position is filled in. -/
theorem unwind_fault (f : Fault) (A : Agenda) (m : Machine) :
    ∃ f', f'.cause = f.cause ∧ unwind job (.fault f) A m = .escaped (.fault f') (m.undo A) := by
  have located (g : Fault) (span : Span) (calls : Trace) : (g.locate span calls).cause = g.cause := by
    unfold Fault.locate
    split <;> rfl
  induction A generalizing f m with
  | nil => exact ⟨f, rfl, rfl⟩
  | cons t A ih =>
    have passes : (∃ node, t = .settle node ∨ t = .within node) ∨
        unwind job (.fault f) (t :: A) m = unwind job (.fault f) A (t.undo m) := by
      cases t <;> simp [unwind, Task.undo]
    rcases passes with ⟨node, rfl | rfl⟩ | passes
    · obtain ⟨f', hc, hf⟩ := ih (f.locate (job.program.tree.span node) m.calls) m
      exact ⟨f', hc.trans (located ..), hf⟩
    · obtain ⟨f', hc, hf⟩ := ih (f.locate (job.program.tree.span node) m.calls) m
      exact ⟨f', hc.trans (located ..), hf⟩
    · obtain ⟨f', hc, hf⟩ := ih f (t.undo m)
      exact ⟨f', hc, passes.trans hf⟩

/-- A jump that nothing in an agenda takes passes all of it. -/
theorem unwind_jump_of_not_takes {j : Jump} {A : Agenda} {m : Machine}
    (h : ∀ t ∈ A, ¬ t.takes j) : unwind job (.jump j) A m = .escaped (.jump j) (m.undo A) := by
  induction A generalizing m with
  | nil => rfl
  | cons t A ih =>
    have ht := h t (List.mem_cons_self ..)
    have hA := fun m => ih (m := m) fun u hu => h u (List.mem_cons_of_mem _ hu)
    cases t with
    | labelled c =>
      have ht : ¬ (j.owner = c.serial ∧ j.frame = c.activation) := ht
      simp only [unwind, if_neg ht, Machine.undo_cons, Task.undo, hA]
    | _ => simp only [unwind, Machine.undo_cons, Task.undo, hA]

/-- A jump lands in the first clause that takes it. -/
theorem unwind_jump_of_takes {j : Jump} {before after : Agenda} {c : LabelledClause} {m : Machine}
    (h : ∀ t ∈ before, ¬ t.takes j) (hc : c.takes j) :
    unwind job (.jump j) (before ++ .labelled c :: after) m =
      match c.resume job j.target with
      | .ok work => .resumed (work ++ after) (c.caught j (m.undo before))
      | .error f => unwind job (.fault f) after (c.caught j (m.undo before)) := by
  have hc : j.owner = c.serial ∧ j.frame = c.activation := hc
  rw [unwind_append, unwind_jump_of_not_takes h]
  simp only [unwind, if_pos hc]
  cases c.resume job j.target <;> rfl

theorem exists_first_takes (j : Jump) (A : Agenda) :
    (∀ t ∈ A, ¬ t.takes j) ∨ ∃ before c after, A = before ++ .labelled c :: after ∧
      (∀ t ∈ before, ¬ t.takes j) ∧ c.takes j := by
  induction A with
  | nil => simp
  | cons t A ih =>
    by_cases ht : t.takes j
    · cases t with
      | labelled c => exact .inr ⟨[], c, A, rfl, by simp, ht⟩
      | _ => exact ht.elim
    · rcases ih with ih | ⟨before, c, after, rfl, hb, hc⟩
      · exact .inl (by simpa [ht] using ih)
      · exact .inr ⟨t :: before, c, after, rfl, by simpa [ht] using hb, hc⟩

/-- The clause that goes on when a step resumes one, and the jump it takes. -/
theorem unwind_resumed {s : Signal} {A agenda : Agenda} {m m' : Machine}
    (h : unwind job s A m = .resumed agenda m') :
    ∃ j before c after work, s = .jump j ∧ A = before ++ .labelled c :: after ∧
      (∀ t ∈ before, ¬ t.takes j) ∧ c.takes j ∧ c.resume job j.target = .ok work ∧
      agenda = work ++ after ∧ m' = c.caught j (m.undo before) := by
  cases s with
  | fault f =>
    obtain ⟨f', -, hf⟩ := @unwind_fault job f A m
    simp [hf] at h
  | jump j =>
    rcases exists_first_takes j A with hn | ⟨before, c, after, rfl, hb, hc⟩
    · simp [unwind_jump_of_not_takes hn] at h
    · rw [unwind_jump_of_takes hb hc] at h
      split at h
      · next work hw =>
        cases h
        exact ⟨j, before, c, after, work, rfl, rfl, hb, hc, hw, rfl, rfl⟩
      · next f _ =>
        obtain ⟨f', -, hf⟩ := @unwind_fault job f after (c.caught j (m.undo before))
        simp [hf] at h

namespace LabelledClause

variable {c : LabelledClause} {target : Option NodeId} {work : Agenda}

/-- A clause that goes on at a label goes on with the units behind it. -/
theorem resume_eq_ok (h : c.resume job target = .ok work) :
    ∃ unit, target = some unit ∧ (job.program.tree.walk (some unit) c.items).pending = none ∧
      work = (job.program.tree.walk (some unit) c.items).steps.map (·.task c.baseline) ++
        [.labelled c] := by
  cases target with
  | none => cases h
  | some unit =>
    simp only [resume] at h
    split at h
    · cases h
    · next found =>
      cases h
      exact ⟨unit, rfl, by simpa using found, rfl⟩

theorem forall_resume {P : Task → Prop} (h : c.resume job target = .ok work) (hu : ∀ n, P (.unit n))
    (hc : P (.cut c.baseline)) (hl : P (.labelled c)) : ∀ t ∈ work, P t := by
  obtain ⟨unit, -, -, rfl⟩ := resume_eq_ok h
  rw [List.forall_mem_append, List.forall_mem_singleton]
  exact ⟨ChainStep.forall_task hu hc _, hl⟩

/-- A clause that does not go on was sent to a label that is not in it. -/
theorem resume_eq_error {f : Fault} (h : c.resume job target = .error f) :
    ∃ label, f = .of (.danglingJump label) := by
  cases target with
  | none =>
    cases h
    exact ⟨_, rfl⟩
  | some unit =>
    simp only [resume] at h
    split at h <;> cases h
    exact ⟨_, rfl⟩

end LabelledClause

/-- The machine a signal that escapes leaves: every task was passed, and at most one clause took
the signal and turned it into a fault. -/
theorem unwind_escaped {s s' : Signal} {A : Agenda} {m m' : Machine}
    (h : unwind job s A m = .escaped s' m') :
    m' = m.undo A ∨ ∃ j before c after, s = .jump j ∧ A = before ++ .labelled c :: after ∧
      (∀ t ∈ before, ¬ t.takes j) ∧ c.takes j ∧
      m' = (c.caught j (m.undo before)).undo after := by
  cases s with
  | fault f =>
    obtain ⟨f', -, hf⟩ := @unwind_fault job f A m
    rw [hf] at h
    cases h
    exact .inl rfl
  | jump j =>
    rcases exists_first_takes j A with hn | ⟨before, c, after, rfl, hb, hc⟩
    · rw [unwind_jump_of_not_takes hn] at h
      cases h
      exact .inl rfl
    · rw [unwind_jump_of_takes hb hc] at h
      split at h
      · cases h
      · next f _ =>
        obtain ⟨f', -, hf⟩ := @unwind_fault job f after (c.caught j (m.undo before))
        rw [hf] at h
        cases h
        exact .inr ⟨j, before, c, after, rfl, rfl, hb, hc, rfl⟩

end Algol68
