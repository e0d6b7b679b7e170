import Algol68.Proofs.Machine.Fits

/-! The rows and strings in the states of a session. They fit for as long as the denotations and the
displays that the session comes to do. -/

namespace Algol68

open Checked (Gives)

variable {N : ℕ∞} {D : ModeId → Prop} {job : Job} {units : NodeId → Prop} {A A' : Agenda} {m m' : Machine}

/-- All rows and strings in a state fit, and the displays yet to be made are of some modes. -/
structure StateFits (N : ℕ∞) (D : ModeId → Prop) (A : Agenda) (m : Machine) : Prop where
  machine : m.Fits N
  tasks : A.Fits N D

theorem StateFits.unit (h : m.Fits N) (unit : NodeId) : StateFits N D [.unit unit] m :=
  ⟨h, Agenda.fits_of_bare (by simp [Task.Bare])⟩

/-- The denotation or the display that the next task makes fits, if it makes one. -/
structure Supplies (N : ℕ∞) (job : Job) (A : Agenda) (m : Machine) : Prop where
  denotation : ∀ node rest l, A = .elaborate node :: rest → job.program.tree.kind node = .literal l →
    (Exec.valueOf job l).Fits N
  display : ∀ mode baseline rest, A = .aggregate mode baseline :: rest → mode ≠ .void →
    Gives (Value.Fits N) (Value.display job.program.modes mode (m.stack.toList.drop baseline))

theorem LabelledClause.resume_bare {c : LabelledClause} {target : Option NodeId} {work : Agenda}
    (h : c.resume job target = .ok work) : ∀ t ∈ work, t.Bare :=
  c.forall_resume (P := Task.Bare) h (fun _ => trivial) trivial trivial

namespace StateFits

theorem of_append {A B : Agenda} (h : StateFits N D (A ++ B) m) : StateFits N D B m :=
  ⟨h.machine, fun t ht => h.tasks t (List.mem_append_right _ ht)⟩

section

variable (h₁ : 1 ≤ N) (hl : (job.config.objectLimit : ℕ∞) ≤ N)
  (hD : ∀ node units, job.program.tree.kind node = .collateral units → D (job.program.tree.mode node))

include h₁ hl hD

theorem exec {t : Task} {rest : Agenda} (h : StateFits N D (t :: rest) m)
    (hs : Supplies N job (t :: rest) m) :
    Exec.wp (t.exec job) (fun work m' => m'.Fits N ∧ work.Fits N D) (fun _ m' => m'.Fits N) m := by
  refine Exec.exec_fits h₁ hl h.machine (h.tasks t (List.mem_cons_self ..)) hD ?_ ?_
  · rintro node l rfl
    exact hs.denotation node rest l rfl
  · rintro mode baseline rfl
    exact hs.display mode baseline rest rfl

theorem does (h : StateFits N D A m) (hs : Supplies N job A m) (hd : Does job (A, m) (A', m')) :
    StateFits N D A' m' := by
  cases hd with
  | done he =>
    obtain ⟨hm, hw⟩ := Exec.wp_ok (h.exec h₁ hl hD hs) he
    exact ⟨hm, hw.append (of_append (A := [_]) h).tasks⟩
  | resumed he hu =>
    have hm := Exec.wp_error (h.exec h₁ hl hD hs) he
    obtain ⟨j, before, c, after, work, rfl, rfl, -, -, hr, rfl, rfl⟩ := unwind_resumed hu
    refine ⟨(hm.undo before).caught c j, .append (Agenda.fits_of_bare ?_) fun t ht => ?_⟩
    · exact LabelledClause.resume_bare hr
    · exact h.tasks t (by simp [ht])

end

end StateFits

theorem Machine.new_fits (keepsText : Bool) : (Machine.new job keepsText).Fits N := by
  refine ⟨nofun, fun f hf => ?_, nofun⟩
  obtain rfl : f = _ := by simpa [Machine.new, FrameStack.standard] using hf
  exact job.program.freshLocals_fits .standard

theorem Machine.Fits.atRest {s : Session} (h : s.machine.Fits N) : s.atRest.machine.Fits N :=
  ⟨nofun, h.locals.truncate 1, h.store⟩

theorem Session.Leaves.fits {s : Session} (h : s.Leaves m m') (hm : m.Fits N) : m'.Fits N := by
  cases h with
  | whole stack hs => exact hm.with_stack hs
  | cleared stack hs => exact ⟨fun v hv => hm.stack v (hs v hv), hm.locals.truncate _, hm.store⟩

section

variable (h₁ : 1 ≤ N) (hl : (job.config.objectLimit : ℕ∞) ≤ N)
  (hD : ∀ node units, job.program.tree.kind node = .collateral units → D (job.program.tree.mode node))
  (hs : ∀ A m, Underway job units A m → StateFits N D A m → Supplies N job A m)

include h₁ hl hD hs

theorem StateFits.runs (h : StateFits N D A m) (hu : Underway job units A m)
    (hr : Runs job (A, m) (A', m')) : StateFits N D A' m' := by
  generalize hx : (A, m) = x at hr
  generalize hy : (A', m') = y at hr
  induction hr generalizing A' m' with
  | refl =>
    cases hx.trans hy.symm
    exact h
  | @tail y _ hr hd ih =>
    subst hx hy
    have hy := ih rfl
    exact hy.does h₁ hl hD (hs _ _ (hu.runs hr) hy) hd

theorem StateFits.ends (h : StateFits N D A m) (hu : Underway job units A m)
    (he : Ends job (A, m) m') : m'.Fits N := by
  rcases he with hr | ⟨sig, t, rest, m₀, m₁, s₀, hr, hx, hu'⟩
  · exact (h.runs h₁ hl hD hs hu hr).machine
  · have h₀ := h.runs h₁ hl hD hs hu hr
    have hm := Exec.wp_error (h₀.exec h₁ hl hD (hs _ _ (hu.runs hr) h₀)) hx
    rcases unwind_escaped hu' with rfl | ⟨j, before, c, after, -, -, -, -, rfl⟩
    · exact hm.undo rest
    · exact ((hm.undo before).caught c j).undo after

theorem Session.Reached.fits {s : Session} (h : Session.Reached job units s) : s.machine.Fits N := by
  induction h with
  | new source keepsText => exact Machine.new_fits keepsText
  | run h steps he ih =>
    obtain ⟨m, hm, hleft⟩ := Session.runUnit_leaves he
    rw [h.job_eq] at hm
    exact hleft.fits ((StateFits.unit ih _).ends h₁ hl hD hs (.run h) hm)
  | resume h steps unit hu he ih =>
    obtain ⟨m, hm, hleft⟩ := Session.runUnit_leaves he
    rw [Session.atRest_job, h.job_eq] at hm
    exact hleft.fits ((StateFits.unit ih.atRest _).ends h₁ hl hD hs (.resume h hu) hm)
  | clear h ih => exact ⟨ih.stack, ih.locals, ih.store⟩

/-- The rows and strings in all states of a session fit. -/
theorem Underway.fits (h : Underway job units A m) : StateFits N D A m := by
  induction h with
  | run h => exact .unit (h.fits h₁ hl hD hs) _
  | resume h hu => exact .unit (h.fits h₁ hl hD hs).atRest _
  | step h hd ih => exact ih.does h₁ hl hD (hs _ _ h ih) hd

end

end Algol68
