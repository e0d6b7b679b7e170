import Algol68.Proofs.Run.Signal

/-! Runs cut where the first part of the agenda is done. Behind work that no running clause watches
over, the first part runs as if nothing followed it: until it is done or in a signal, no step looks at
the rest. -/

namespace Algol68

variable {job : Job} {A B : Agenda} {m m' : Machine} {x y : Agenda × Machine} {s s' : Signal} {t : Task}

/-- No clause that could take a jump runs on the agenda. -/
def Agenda.Unlabelled (A : Agenda) : Prop := ∀ c, .labelled c ∉ A

theorem unlabelled_single (h : ∀ c, t ≠ .labelled c) : Agenda.Unlabelled [t] := by
  intro c hc
  exact h c (List.mem_singleton.mp hc).symm

/-- A signal passes the whole of an agenda in which no clause runs. -/
theorem unwind_of_unlabelled (hB : B.Unlabelled) (s : Signal) (m : Machine) :
    ∃ s', unwind job s B m = .escaped s' (m.undo B) := by
  cases s with
  | fault f =>
    obtain ⟨f', -, hf⟩ := @unwind_fault job f B m
    exact ⟨.fault f', hf⟩
  | jump j =>
    refine ⟨.jump j, unwind_jump_of_not_takes fun t ht taken => ?_⟩
    cases t with
    | labelled c => exact hB c ht
    | _ => exact taken

theorem Does.cut (hB : B.Unlabelled) (h : Does job (t :: A ++ B, m) y) :
    ∃ A', y.1 = A' ++ B ∧ Does job (t :: A, m) (A', y.2) := by
  cases h with
  | @done _ work _ _ _ he => exact ⟨work ++ A, (List.append_assoc ..).symm, .done he⟩
  | @resumed _ _ agenda _ m₁ m₂ s he hu =>
    replace hu : unwind job s (A ++ B) m₁ = .resumed agenda m₂ := hu
    rw [unwind_append] at hu
    split at hu
    · next work n hA =>
      cases hu
      exact ⟨work, rfl, .resumed he hA⟩
    · next s' n hA =>
      obtain ⟨s₂, hs⟩ := @unwind_of_unlabelled job B hB s' n
      cases hs.symm.trans hu

/-- A run of an agenda in two parts is in the first part, or has done that and is in the second. -/
theorem Runs.cut (hB : B.Unlabelled) (h : Runs job (A ++ B, m) y) :
    (∃ A', y.1 = A' ++ B ∧ Runs job (A, m) (A', y.2)) ∨
      ∃ m₁, Runs job (A, m) ([], m₁) ∧ Runs job (B, m₁) y := by
  induction h with
  | refl => exact .inl ⟨A, rfl, .refl⟩
  | @tail y z _ hs ih =>
    rcases ih with ⟨A', hy, hr⟩ | ⟨m₁, hr, hB'⟩
    · obtain ⟨Y, my⟩ := y
      obtain rfl : Y = A' ++ B := hy
      cases A' with
      | nil => exact .inr ⟨my, hr, .single hs⟩
      | cons t A' =>
        obtain ⟨A'', hz, hd⟩ := hs.cut hB
        exact .inl ⟨A'', hz, hr.tail hd⟩
    · exact .inr ⟨m₁, hr, hB'.tail hs⟩

theorem Runs.unique (h : Runs job x ([], m)) (h' : Runs job x ([], m')) : m = m' :=
  congrArg Prod.snd ((Final.of_empty m).unique (.of_empty m') h h')

theorem Escapes.unique (h : Escapes job x s m) (h' : Escapes job x s' m') : s = s' ∧ m = m' := by
  obtain ⟨t, rest, m₀, m₁, s₀, hr, he, hu⟩ := h
  obtain ⟨t', rest', m₀', m₁', s₀', hr', he', hu'⟩ := h'
  cases (Final.of_escaped he hu).unique (.of_escaped he' hu') hr hr'
  cases he.symm.trans he'
  cases hu.symm.trans hu'
  exact ⟨rfl, rfl⟩

theorem Escapes.not_runs (h : Escapes job x s m) : ¬ Runs job x ([], m') := by
  intro hr'
  obtain ⟨t, rest, m₀, m₁, s₀, hr, he, hu⟩ := h
  cases (Final.of_escaped he hu).unique (.of_empty m') hr hr'

/-- A signal that nothing takes in the first part is passed on to the second. -/
theorem Escapes.append {n : Machine} (h : Escapes job (A, m) s m')
    (hu : unwind job s B m' = .escaped s' n) : Escapes job (A ++ B, m) s' n := by
  obtain ⟨t, rest, m₀, m₁, s₀, hr, he, hA⟩ := h
  refine ⟨t, rest ++ B, m₀, m₁, s₀, hr.append B, he, ?_⟩
  rw [unwind_append, hA]
  exact hu

theorem Escapes.of_runs (hr : Runs job x y) (h : Escapes job y s m) : Escapes job x s m := by
  obtain ⟨t, rest, m₀, m₁, s₀, hr', he, hu⟩ := h
  exact ⟨t, rest, m₀, m₁, s₀, hr.trans hr', he, hu⟩

theorem does_single_iff : Does job ([t], m) y ↔ t.exec job m = .ok y.1 y.2 := by
  constructor
  · intro h
    cases h with
    | done he => rw [he, List.append_nil]
    | resumed _ hu => cases hu
  · intro he
    have hd : Does job ([t], m) (y.1 ++ [], y.2) := .done he
    rwa [List.append_nil] at hd

end Algol68
