import Algol68.Proofs.Run.Step

/-! Runs that come to an end. Such a run ends in one way, it is driven there by enough steps, and no
state on its way can be left in two ways, so that an induction along the rest of the run is
possible. -/

namespace Algol68

variable {job : Job} {A A' : Agenda} {m m' : Machine} {e e' : Halt} {x y : Agenda × Machine}

/-- How the run from a state comes to an end: all is done, or a signal escapes. -/
inductive Halts (job : Job) (x : Agenda × Machine) : Halt → Prop where
  | completed {m : Machine} (h : Runs job x ([], m)) : Halts job x (.completed m)
  | escaped {s : Signal} {m : Machine} (h : Escapes job x s m) : Halts job x (.escaped s m)

theorem drive_of_does (hs : Does job (A, m) (A', m')) (k : Nat) :
    drive job (k + 1) A m = drive job k A' m' := by
  cases hs with
  | done he => simp only [drive, he]
  | resumed he hu => simp only [drive, he, hu]

theorem drive_of_runs (hr : Runs job x y) :
    ∃ steps, ∀ k, drive job (steps + k) x.1 x.2 = drive job k y.1 y.2 := by
  induction hr using Relation.ReflTransGen.head_induction_on with
  | refl => exact ⟨0, fun k => by rw [Nat.zero_add]⟩
  | head hs _ ih =>
    obtain ⟨steps, h⟩ := ih
    refine ⟨steps + 1, fun k => ?_⟩
    rw [Nat.add_right_comm, drive_of_does hs, h]

namespace Halts

theorem of_drive {steps : Nat} (hd : drive job steps A m = e)
    (he : ∀ A' m', e ≠ .unfinished A' m') : Halts job (A, m) e := by
  subst hd
  have spec := @drive_spec job steps A m
  split at spec
  · next h =>
    rw [h]
    exact .completed spec
  · next h =>
    rw [h]
    exact .escaped spec
  · next h => exact absurd h (he _ _)

theorem exists_drive (h : Halts job (A, m) e) : ∃ steps, drive job steps A m = e := by
  cases h with
  | completed h =>
    obtain ⟨steps, hd⟩ := drive_of_runs h
    exact ⟨steps, by simpa [drive] using hd 0⟩
  | escaped h =>
    obtain ⟨t, rest, m₀, m₁, s₀, hr, he, hu⟩ := h
    obtain ⟨steps, hd⟩ := drive_of_runs hr
    exact ⟨steps + 1, by simp only [hd, drive, he, hu]⟩

theorem of_does (hs : Does job x y) (h : Halts job y e) : Halts job x e := by
  cases h with
  | completed h => exact .completed (.head hs h)
  | escaped h => exact .escaped (h.of_does hs)

/-- The last state, in which no step is left. -/
theorem exists_final (h : Halts job x e) : ∃ y, Runs job x y ∧ Final job y := by
  cases h with
  | completed h => exact ⟨_, h, .of_empty _⟩
  | escaped h =>
    obtain ⟨t, rest, m₀, m₁, s₀, hr, he, hu⟩ := h
    exact ⟨_, hr, .of_escaped he hu⟩

theorem unique (h : Halts job (A, m) e) (h' : Halts job (A, m) e') : e = e' := by
  have completed {m₁ : Machine} {e' : Halt} (h : Runs job (A, m) ([], m₁))
      (h' : Halts job (A, m) e') : Halt.completed m₁ = e' := by
    cases h' with
    | completed h' =>
      cases (Final.of_empty m₁).unique (.of_empty _) h h'
      rfl
    | escaped h' =>
      obtain ⟨t, rest, m₀, m₁, s₀, hr, he, hu⟩ := h'
      cases (Final.of_empty _).unique (.of_escaped he hu) h hr
  cases h with
  | completed h => exact completed h h'
  | escaped h =>
    cases h' with
    | completed h' => exact (completed h' (.escaped h)).symm
    | escaped h' =>
      obtain ⟨t, rest, m₀, m₁, s₀, hr, he, hu⟩ := h
      obtain ⟨t', rest', m₀', m₁', s₀', hr', he', hu'⟩ := h'
      cases (Final.of_escaped he hu).unique (.of_escaped he' hu') hr hr'
      cases he.symm.trans he'
      cases hu.symm.trans hu'
      rfl

/-- Only finitely many steps can be made on the way. -/
theorem acc (h : Halts job x e) : Acc (fun y x => Does job x y) x := by
  obtain ⟨y, hr, hy⟩ := h.exists_final
  clear h
  induction hr using Relation.ReflTransGen.head_induction_on with
  | refl => exact .intro _ fun z hz => absurd hz (hy z)
  | head hs _ ih =>
    refine .intro _ fun z hz => ?_
    rwa [hz.unique hs]

end Halts

/-- A run in which no step is left has come to an end. -/
theorem Final.halts (h : Final job (A, m)) : ∃ e, Halts job (A, m) e := by
  cases A with
  | nil => exact ⟨_, .completed .refl⟩
  | cons t rest =>
    cases he : t.exec job m with
    | ok work m' => exact absurd (.done he) (h _)
    | error s m' =>
      cases hu : unwind job s rest m' with
      | resumed agenda m'' => exact absurd (.resumed he hu) (h _)
      | escaped s' m'' => exact ⟨_, .escaped ⟨t, rest, m, m', s, .refl, he, hu⟩⟩

end Algol68
