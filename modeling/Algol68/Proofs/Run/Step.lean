import Algol68.Machine.Run
import Mathlib.Logic.Relation

/-! Runs of the machine as steps between states. A state is an agenda with a machine; a step does
the first task, or goes on in the clause that takes the jump the task ended in. What every step
keeps is kept by `drive`, however many steps it is given. -/

namespace Algol68

variable {job : Job}

/-- One step of a run. -/
inductive Does (job : Job) : Agenda × Machine → Agenda × Machine → Prop where
  | done {task : Task} {work rest : Agenda} {m m' : Machine} (he : task.exec job m = .ok work m') :
      Does job (task :: rest, m) (work ++ rest, m')
  | resumed {task : Task} {rest agenda : Agenda} {m m' m'' : Machine} {s : Signal}
      (he : task.exec job m = .error s m') (hu : unwind job s rest m' = .resumed agenda m'') :
      Does job (task :: rest, m) (agenda, m'')

/-- Any number of steps of a run. -/
abbrev Runs (job : Job) : Agenda × Machine → Agenda × Machine → Prop :=
  Relation.ReflTransGen (Does job)

/-! A signal passes the tasks in front of the one that takes it in the same way whatever follows. -/

theorem unwind_append (s : Signal) (A B : Agenda) (m : Machine) :
    unwind job s (A ++ B) m =
      match unwind job s A m with
      | .resumed agenda m' => .resumed (agenda ++ B) m'
      | .escaped s' m' => unwind job s' B m' := by
  fun_induction unwind job s A m with
  | case1 s m => rfl
  | case2 rest m f node ih => simpa only [List.cons_append, unwind] using ih
  | case3 rest m f node ih => simpa only [List.cons_append, unwind] using ih
  | case4 rest m j c h m₁ work hw =>
    simp only [List.cons_append, unwind, if_pos h, ← List.append_assoc]
    simp only [hw, m₁]
  | case5 rest m j c h m₁ f hw ih =>
    simp only [List.cons_append, unwind, if_pos h]
    simp only [hw, m₁] at ih ⊢
    exact ih
  | case6 rest m j c h ih =>
    simp only [List.cons_append, unwind, if_neg h]
    exact ih
  | case7 s rest m depth ih => cases s <;> simpa only [List.cons_append, unwind] using ih
  | case8 s rest m ih => cases s <;> simpa only [List.cons_append, unwind] using ih
  | case9 s task rest m h₁ h₂ h₃ h₄ h₅ ih =>
    have stays : ∀ C, unwind job s (task :: C) m = unwind job s C m := by
      intro C
      cases s <;> cases task <;> simp_all [unwind]
    rw [List.cons_append, stays]
    exact ih

theorem Does.append {A A' : Agenda} {m m' : Machine} (h : Does job (A, m) (A', m'))
    (B : Agenda) : Does job (A ++ B, m) (A' ++ B, m') := by
  cases h with
  | done he => simpa using Does.done he
  | resumed he hu =>
    refine .resumed he ?_
    change unwind job _ (_ ++ B) _ = _
    rw [unwind_append, hu]

theorem Runs.append {A A' : Agenda} {m m' : Machine} (h : Runs job (A, m) (A', m'))
    (B : Agenda) : Runs job (A ++ B, m) (A' ++ B, m') :=
  h.lift (fun x => (x.1 ++ B, x.2)) fun _ _ hs => hs.append B

/-- How a run that ends in a signal ends: its last task ended in a signal that nothing took. -/
def Escapes (job : Job) (x : Agenda × Machine) (s : Signal) (m : Machine) : Prop :=
  ∃ task rest m₀ m₁ s₀, Runs job x (task :: rest, m₀) ∧ task.exec job m₀ = .error s₀ m₁ ∧
    unwind job s₀ rest m₁ = .escaped s m

/-! A run goes one way. -/

theorem Does.unique {x y z : Agenda × Machine} (h : Does job x y) (h' : Does job x z) : y = z := by
  cases h with
  | done he =>
    cases h' with
    | done he' =>
      cases he.symm.trans he'
      rfl
    | resumed he' _ => cases he.symm.trans he'
  | resumed he hu =>
    cases h' with
    | done he' => cases he.symm.trans he'
    | resumed he' hu' =>
      cases he.symm.trans he'
      cases hu.symm.trans hu'
      rfl

/-- A state from which no step is made. -/
def Final (job : Job) (x : Agenda × Machine) : Prop := ∀ y, ¬ Does job x y

theorem Final.of_empty (m : Machine) : Final job ([], m) := fun _ h => nomatch h

theorem Final.of_escaped {t : Task} {rest : Agenda} {m m₁ m₂ : Machine} {s s' : Signal}
    (he : t.exec job m = .error s m₁) (hu : unwind job s rest m₁ = .escaped s' m₂) :
    Final job (t :: rest, m) := by
  intro y h
  cases h with
  | done he' => cases he.symm.trans he'
  | resumed he' hu' =>
    cases he.symm.trans he'
    cases hu.symm.trans hu'

theorem Final.runs {x y z : Agenda × Machine} (hz : Final job z) (h : Runs job x y)
    (h' : Runs job x z) : Runs job y z := by
  have unique : Relator.RightUnique (Does job) := fun _ _ _ h h' => h.unique h'
  rcases Relation.ReflTransGen.total_of_right_unique unique h h' with h | h
  · exact h
  · rcases Relation.ReflTransGen.cases_head h with rfl | ⟨_, hd, -⟩
    · exact .refl
    · exact absurd hd (hz _)

theorem Final.unique {x y z : Agenda × Machine} (hy : Final job y) (hz : Final job z)
    (h : Runs job x y) (h' : Runs job x z) : y = z := by
  rcases Relation.ReflTransGen.cases_head (hz.runs h h') with heq | ⟨_, hd, -⟩
  · exact heq
  · exact absurd hd (hy _)

theorem Escapes.of_does {x y : Agenda × Machine} {s : Signal} {m : Machine} (hs : Does job x y)
    (h : Escapes job y s m) : Escapes job x s m := by
  obtain ⟨task, rest, m₀, m₁, s₀, hr, he, hu⟩ := h
  exact ⟨task, rest, m₀, m₁, s₀, .head hs hr, he, hu⟩

/-- What `drive` answers, in terms of steps. -/
theorem drive_spec (steps : Nat) (A : Agenda) (m : Machine) :
    match drive job steps A m with
    | .completed m' => Runs job (A, m) ([], m')
    | .escaped s m' => Escapes job (A, m) s m'
    | .unfinished A' m' => Runs job (A, m) (A', m') := by
  fun_induction drive job steps A m with
  | case1 => exact .refl
  | case2 => exact .refl
  | case3 steps task rest m work m' he ih =>
    have hs : Does job (task :: rest, m) (work ++ rest, m') := .done he
    split at ih
    · exact .head hs ih
    · exact ih.of_does hs
    · exact .head hs ih
  | case4 steps task rest m s m' he agenda m'' hu ih =>
    have hs := Does.resumed he hu
    split at ih
    · exact .head hs ih
    · exact ih.of_does hs
    · exact .head hs ih
  | case5 steps task rest m s m' he s' m'' hu =>
    exact ⟨task, rest, m, m', s, .refl, he, hu⟩

theorem runs_of_completed {steps : Nat} {A : Agenda} {m m' : Machine}
    (h : drive job steps A m = .completed m') : Runs job (A, m) ([], m') := by
  simpa [h] using @drive_spec job steps A m

theorem escapes_of_escaped {steps : Nat} {A : Agenda} {m m' : Machine} {s : Signal}
    (h : drive job steps A m = .escaped s m') : Escapes job (A, m) s m' := by
  simpa [h] using @drive_spec job steps A m

theorem runs_of_unfinished {steps : Nat} {A A' : Agenda} {m m' : Machine}
    (h : drive job steps A m = .unfinished A' m') : Runs job (A, m) (A', m') := by
  simpa [h] using @drive_spec job steps A m

end Algol68
