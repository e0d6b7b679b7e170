import Algol68.Proofs.Annotation.Lesson
import Algol68.Proofs.Run.Session
import Algol68.Proofs.Run.Signal

/-! The evaluations that are going on. The end of each stands on the agenda, below the work that is left of
it, so the agenda tells which units are being evaluated, and in which order they will be left. -/

namespace Algol68

open Agenda

variable {job : Job} {A A' before after : Agenda} {m m' : Machine} {t : Task} {n : NodeId}

/-- The evaluation of `n` in front of `after` was begun on the way from `x` to `y` and is not over:
nothing but its work was done since, and some of it is left. -/
def Evaluates (job : Job) (x : Agenda × Machine) (n : NodeId) (after : Agenda)
    (y : Agenda × Machine) : Prop :=
  ∃ m₀ z inner, Runs job x (.unit n :: after, m₀) ∧ Does job ([.unit n], m₀) z ∧
    Runs job z (inner, y.2) ∧ inner ≠ [] ∧ y.1 = inner ++ after

theorem LabelledClause.resume_active {c : LabelledClause} {target : Option NodeId} {work : Agenda}
    (h : c.resume job target = .ok work) : work.active = [] :=
  active_eq_nil_iff.mpr <|
    c.forall_resume (P := fun t => t.ends = none) h (fun _ => rfl) rfl rfl

/-- Behind work in which no evaluation ends, the end of an evaluation comes later. -/
theorem Agenda.exists_of_active_eq_nil {X Y : Agenda} (hX : X.active = []) (ht : t.ends = some n)
    (h : X ++ Y = before ++ t :: after) : ∃ C, before = X ++ C ∧ Y = C ++ t :: after := by
  rcases List.append_eq_append_iff.mp h with ⟨C, hb, hY⟩ | ⟨C, hX', hY⟩
  · exact ⟨C, hb, hY⟩
  · cases C with
    | nil => exact ⟨[], by simpa using hX'.symm, by simpa using hY.symm⟩
    | cons u C =>
      obtain ⟨rfl, -⟩ := List.cons.inj hY
      have := active_eq_nil_iff.mp hX t (by simp [hX'])
      rw [this] at ht
      cases ht

/-- Only the evaluation of a unit leaves the end of an evaluation, which is its own. -/
theorem Does.work_cases {work : Agenda} (he : t.exec job m = .ok work m') :
    work.active = [] ∨ ∃ n u e, t = .unit n ∧ work = [u, e] ∧ u.ends = none ∧ e.ends = some n := by
  by_cases ht : ∃ n, t = .unit n
  · obtain ⟨n, rfl⟩ := ht
    obtain ⟨-, u, e, hwork, hu, hend⟩ := Exec.wp_ok (@Exec.unit_teaches job m n) he
    exact .inr ⟨n, u, e, rfl, hwork, hu, hend⟩
  · exact .inl ((Exec.wp_ok (Exec.exec_teaches t) he).2 fun n hn => ht ⟨n, hn⟩)

/-- Where an evaluation that is going on stood before a step: it was going on then, and the step is part
of it, or the step began it. -/
theorem Does.active_cases (hs : Does job (A, m) (A', m')) (hA : A' = before ++ t :: after)
    (ht : t.ends = some n) :
    (∃ b, A = b ++ t :: after ∧ Does job (b ++ [t], m) (before ++ [t], m')) ∨
      A = .unit n :: after ∧ Does job ([.unit n], m) (before ++ [t], m') := by
  cases hs with
  | @done t₀ work rest _ _ he =>
    have old {b : Agenda} (hb : before = work ++ b) :
        Does job (t₀ :: b ++ [t], m) (before ++ [t], m') := by
      rw [hb, List.append_assoc]
      exact .done he
    rcases Does.work_cases he with hw | ⟨k, u, e, rfl, rfl, hu, hend⟩
    · obtain ⟨C, hb, hrest⟩ := exists_of_active_eq_nil hw ht hA
      exact .inl ⟨t₀ :: C, by rw [hrest]; rfl, old hb⟩
    · have hu' : active [u] = [] := by rw [active_cons_of_none hu, active_nil]
      obtain ⟨C, hb, hrest⟩ := exists_of_active_eq_nil (X := [u]) (Y := e :: rest) hu' ht hA
      cases C with
      | nil =>
        obtain ⟨rfl, rfl⟩ := List.cons.inj hrest
        cases hend.symm.trans ht
        refine .inr ⟨rfl, ?_⟩
        rw [hb]
        exact .done he
      | cons e' C =>
        obtain ⟨rfl, rfl⟩ := List.cons.inj hrest
        exact .inl ⟨.unit k :: C, rfl, old hb⟩
  | @resumed t₀ rest _ _ m₁ _ s he hx =>
    obtain ⟨j, b, d, a, work, rfl, rfl, hb, hd, hw, rfl, rfl⟩ := unwind_resumed hx
    -- no evaluation ends in the work of the resumed clause, so the clause runs within the evaluation
    obtain ⟨C, rfl, rfl⟩ := exists_of_active_eq_nil (LabelledClause.resume_active hw) ht hA
    refine .inl ⟨t₀ :: (b ++ .labelled d :: C), by simp, ?_⟩
    have goes : Does job (t₀ :: (b ++ .labelled d :: (C ++ [t])), m)
        (work ++ (C ++ [t]), d.caught j (m₁.undo b)) := by
      refine .resumed he ?_
      rw [unwind_jump_of_takes hb hd, hw]
    simpa using goes

theorem Task.exec_of_ends (job : Job) (ht : t.ends = some n) (m : Machine) :
    ∃ m', t.exec job m = .ok [] m' := by
  cases t with
  | settle | within => exact ⟨_, rfl⟩
  | _ => cases ht

theorem Does.of_unit {z : Agenda × Machine} (h : Does job ([.unit n], m) z) :
    ∃ u e, z.1 = [u, e] ∧ u.ends = none ∧ e.ends = some n := by
  cases h with
  | done he =>
    obtain ⟨-, u, e, hwork, hu, hend⟩ := Exec.wp_ok (@Exec.unit_teaches job m n) he
    exact ⟨u, e, by simp [hwork], hu, hend⟩
  | resumed he hu => exact (Exec.wp_error (@Exec.unit_teaches job m n) he).elim

/-- What is left below a clause that runs within an evaluation still ends the evaluation. -/
theorem Agenda.exists_of_labelled {inner A : Agenda} {c : LabelledClause} {e : Task}
    (he : e.ends = some n) (h : before ++ .labelled c :: A = inner ++ [e]) : ∃ C, A = C ++ [e] := by
  rcases List.eq_nil_or_concat A with rfl | ⟨C, e', rfl⟩
  · obtain ⟨-, heq⟩ := List.append_inj' h rfl
    cases heq
    cases he
  · rw [List.concat_eq_append, ← List.cons_append, ← List.append_assoc] at h
    obtain ⟨-, heq⟩ := List.append_inj' h rfl
    cases heq
    exact ⟨C, List.concat_eq_append⟩

/-- As long as work is left of an evaluation, its end stands below that work. -/
theorem Does.end_stays {inner : Agenda} {e : Task} {z : Agenda × Machine} (he : e.ends = some n)
    (h : Does job (inner ++ [e], m) z) :
    (inner = [] ∧ z.1 = []) ∨ ∃ inner', z.1 = inner' ++ [e] := by
  cases inner with
  | nil =>
    obtain ⟨m', hx⟩ := Task.exec_of_ends job he m
    cases h with
    | done hd =>
      cases hx.symm.trans hd
      exact .inl ⟨rfl, rfl⟩
    | resumed hd hu => cases hx.symm.trans hd
  | cons t b =>
    cases h with
    | @done _ work _ _ _ hd => exact .inr ⟨work ++ b, (List.append_assoc ..).symm⟩
    | resumed hd hu =>
      obtain ⟨j, b', d, a, work, -, hb, -, -, -, rfl, -⟩ := unwind_resumed hu
      obtain ⟨C, rfl⟩ := exists_of_labelled he hb.symm
      exact .inr ⟨work ++ C, (List.append_assoc ..).symm⟩

theorem Runs.end_stays (inner : Agenda) {e : Task} {y : Agenda × Machine} (he : e.ends = some n)
    (h : Runs job (inner ++ [e], m) y) : y.1 = [] ∨ ∃ inner', y.1 = inner' ++ [e] := by
  induction h with
  | refl => exact .inr ⟨inner, rfl⟩
  | @tail y z _ hs ih =>
    obtain ⟨Y, my⟩ := y
    rcases ih with rfl | ⟨inner', rfl⟩
    · cases hs
    · exact (hs.end_stays he).imp_left And.right

theorem Runs.exists_last (inner : Agenda) {e : Task} (he : e.ends = some n)
    (h : Runs job (inner ++ [e], m) ([], m')) :
    ∃ m₁, Runs job (inner ++ [e], m) ([e], m₁) ∧ Does job ([e], m₁) ([], m') := by
  rcases Relation.ReflTransGen.cases_tail h with heq | ⟨y, hy, hs⟩
  · exact absurd (congrArg Prod.fst heq) (by simp)
  · obtain ⟨Y, my⟩ := y
    rcases Runs.end_stays inner he hy with rfl | ⟨inner', rfl⟩
    · cases hs
    · rcases hs.end_stays he with ⟨rfl, -⟩ | ⟨_, hne⟩
      · exact ⟨my, hy, hs⟩
      · exact absurd hne (by simp)

theorem Runs.exists_end {y z : Agenda × Machine} (hz : Does job ([.unit n], m) z)
    (h : Runs job z y) : y.1 = [] ∨ ∃ inner e, y.1 = inner ++ [e] ∧ e.ends = some n := by
  obtain ⟨Z, mz⟩ := z
  obtain ⟨u, e, rfl, -, he⟩ := hz.of_unit
  rcases Runs.end_stays [u] he h with hnil | ⟨inner', hy⟩
  · exact .inl hnil
  · exact .inr ⟨inner', e, hy, he⟩

/-- The evaluations that go on in a state of a run are those that its agenda has still to end. -/
theorem evaluates_iff {unit : NodeId} {y : Agenda × Machine} (h : Runs job ([.unit unit], m) y) :
    Evaluates job ([.unit unit], m) n after y ↔
      ∃ before t, y.1 = before ++ t :: after ∧ t.ends = some n := by
  constructor
  · rintro ⟨m₀, z, inner, -, hz, hr, hne, hy⟩
    rcases hr.exists_end hz with hnil | ⟨before, e, hinner, he⟩
    · exact absurd hnil hne
    · have hinner : inner = before ++ [e] := hinner
      exact ⟨before, e, by simp [hy, hinner], he⟩
  · rintro ⟨before, t, hy, ht⟩
    induction h generalizing before with
    | refl =>
      have hy : [Task.unit unit] = before ++ t :: after := hy
      have hsingle : t ∈ [Task.unit unit] := by simp [hy]
      obtain rfl := List.mem_singleton.mp hsingle
      cases ht
    | @tail y z hr hs ih =>
      obtain ⟨Y, my⟩ := y
      obtain ⟨Z, mz⟩ := z
      rcases hs.active_cases hy ht with ⟨b, hY, hs'⟩ | ⟨hY, hs'⟩
      · obtain ⟨m₀, z₀, inner, hbegin, hz, hrun, hne, hinner⟩ := ih b hY
        have hsame : inner = b ++ [t] := by
          have heq : inner ++ after = b ++ [t] ++ after := by
            rw [← hinner]
            simpa using hY
          exact List.append_cancel_right heq
        subst hsame
        exact ⟨m₀, z₀, before ++ [t], hbegin, hz, hrun.tail hs', by simp, by simpa using hy⟩
      · subst hY
        exact ⟨my, _, before ++ [t], hr, hs', .refl, by simp, by simpa using hy⟩

/-- The task in front ends the evaluation that was begun last of those that go on. -/
theorem Runs.evaluated_of_head {unit : NodeId} (h : Runs job ([.unit unit], m) (t :: after, m'))
    (ht : t.ends = some n) : ∃ m₀ z, Runs job ([.unit unit], m) (.unit n :: after, m₀) ∧
      Does job ([.unit n], m₀) z ∧ Runs job z ([t], m') := by
  obtain ⟨m₀, z, inner, hbegin, hz, hr, -, hinner⟩ := (evaluates_iff h).mpr ⟨[], t, rfl, ht⟩
  have single : inner = [t] := (List.append_cancel_right hinner).symm
  subst single
  exact ⟨m₀, z, hbegin, hz, hr⟩

end Algol68
