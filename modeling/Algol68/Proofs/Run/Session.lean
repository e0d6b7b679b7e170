import Algol68.Machine.Session
import Algol68.Proofs.Machine.Outcome
import Algol68.Proofs.Run.Step

/-! The sessions that a sequence of actions reaches, and the states their runs pass through. The
actions are those of a monitor: it runs the program, resumes with a unit after a fault, and clears
the text printed so far. -/

namespace Algol68

variable {job : Job}

/-- A run that ends in a machine, by completing or in a signal. -/
def Ends (job : Job) (x : Agenda × Machine) (m : Machine) : Prop :=
  Runs job x ([], m) ∨ ∃ s, Escapes job x s m

theorem Ends.of_runs {x y : Agenda × Machine} {m : Machine} (h : Ends job x m) (hr : Runs job x y) :
    Ends job y m := by
  rcases h with hdone | ⟨s, t, rest, m₁, m₂, s₀, hlast, he, hu⟩
  · exact .inl ((Final.of_empty m).runs hr hdone)
  · exact .inr ⟨s, t, rest, m₁, m₂, s₀, (Final.of_escaped he hu).runs hr hlast, he, hu⟩

/-- Whether an action came to an end. -/
def Outcome.ended : Outcome → Bool
  | .unfinished => false
  | _ => true

/-- The fault that an outcome tells of. -/
def Outcome.fault? : Outcome → Option Fault
  | .trapped f | .failed f => some f
  | _ => none

namespace Session

/-- The sessions reached by actions that came to an end. Those that resume do so with one of the
given units. -/
inductive Reached (job : Job) (units : NodeId → Prop) : Session → Prop where
  | new (source : Option String) (keepsText : Bool) :
      Reached job units (.new job source keepsText)
  | run {s : Session} (h : Reached job units s) (steps : Nat) (he : (s.run steps).1.ended) :
      Reached job units (s.run steps).2
  | resume {s : Session} (h : Reached job units s) (steps : Nat) (unit : NodeId)
      (hu : units unit) (he : (s.resume steps unit).1.ended) :
      Reached job units (s.resume steps unit).2
  | clear {s : Session} (h : Reached job units s) : Reached job units s.clear

@[simp] theorem atRest_job (s : Session) : s.atRest.job = s.job := rfl

@[simp] theorem clear_job (s : Session) : s.clear.job = s.job := rfl

@[simp] theorem abandon_job (s : Session) (m : Machine) (f : Fault) :
    (s.abandon m f).2.job = s.job := rfl

theorem conclude_job (s : Session) (unit : NodeId) (h : Halt) :
    (s.conclude unit h).2.job = s.job := by
  cases h with
  | completed m =>
    simp only [conclude]
    split <;> rfl
  | escaped s m => rfl
  | unfinished A m => rfl

theorem runUnit_job (s : Session) (steps : Nat) (unit : NodeId) :
    (s.runUnit steps unit).2.job = s.job := s.conclude_job unit _

theorem Reached.job_eq {units : NodeId → Prop} {s : Session} (h : Reached job units s) :
    s.job = job := by
  induction h with
  | new => rfl
  | run _ steps _ ih => exact (runUnit_job _ steps _).trans ih
  | resume _ steps unit _ _ ih => exact (runUnit_job _ steps unit).trans ih
  | clear _ ih => exact ih

/-- What an action leaves of the machine its run ended in: everything but some values on the stack,
or, after a fault, no calls either and no frames but those that were there at its start. -/
inductive Leaves (s : Session) (m : Machine) : Machine → Prop where
  | whole (stack : Array Value) (hs : ∀ v ∈ stack, v ∈ m.stack) :
      Leaves s m { m with stack := stack }
  | cleared (stack : Array Value) (hs : ∀ v ∈ stack, v ∈ m.stack) : Leaves s m { m with
      stack := stack
      frames := m.frames.truncate s.machine.frames.depth
      calls := [] }

theorem mem_of_mem_shrink {S : Array Value} {n : Nat} {v : Value} (h : v ∈ S.shrink n) : v ∈ S := by
  rw [Array.mem_def, Array.toList_shrink] at h
  exact Array.mem_def.mpr (List.mem_of_mem_take h)

/-- Taking the value of a unit changes nothing but the stack. -/
theorem result_keeps (mode : ModeId) (baseline : Nat) (m : Machine) :
    Exec.wp (Exec.result mode baseline)
      (fun _ m' => ∃ S : Array Value, (∀ v ∈ S, v ∈ m.stack) ∧ m' = { m with stack := S })
      (fun _ m' => ∃ S : Array Value, (∀ v ∈ S, v ∈ m.stack) ∧ m' = { m with stack := S }) m := by
  have whole : ∃ S : Array Value, (∀ v ∈ S, v ∈ m.stack) ∧ m = { m with stack := S } :=
    ⟨m.stack, fun _ h => h, rfl⟩
  simp only [Exec.result, Exec.wp_bind, Exec.wp_ite, Exec.wp_pure, Exec.wp_depth, Exec.wp_pop,
    Exec.wp_fail]
  refine ⟨fun _ => ⟨fun _ => whole, fun _ => whole⟩, fun _ => ⟨fun S v hS => ?_, fun _ => whole⟩⟩
  have popped : ∀ w ∈ S, w ∈ m.stack := fun w hw => by simp [hS, hw]
  exact ⟨fun _ => ⟨S, popped, rfl⟩, fun _ => ⟨S, popped, rfl⟩⟩

/-- After an action that ended, the machine is what its run left. -/
theorem runUnit_leaves {s : Session} {steps : Nat} {unit : NodeId}
    (he : (s.runUnit steps unit).1.ended) :
    ∃ m, Ends s.job ([.unit unit], s.machine) m ∧
      Leaves s m (s.runUnit steps unit).2.machine := by
  unfold runUnit at he ⊢
  cases hd : drive s.job steps [.unit unit] s.machine with
  | completed m =>
    refine ⟨m, .inl (runs_of_completed hd), ?_⟩
    have keeps := result_keeps (s.job.program.tree.mode unit) s.machine.stack.size m
    simp only [conclude]
    split
    · next hr =>
      obtain ⟨S, hS, rfl⟩ := Exec.wp_ok keeps hr
      exact .whole S hS
    · next hr =>
      obtain ⟨S, hS, rfl⟩ := Exec.wp_error keeps hr
      exact .cleared _ fun v hv => hS v (mem_of_mem_shrink hv)
  | escaped sig m =>
    exact ⟨m, .inr ⟨sig, escapes_of_escaped hd⟩, .cleared _ fun _ => mem_of_mem_shrink⟩
  | unfinished A m => simp [hd, conclude, Outcome.ended] at he

/-- A fault that an action tells of stems from the signal that ended its run, or the stack was not as it
should be after the run. -/
theorem runUnit_fault {s : Session} {steps : Nat} {unit : NodeId} {f : Fault}
    (hf : (s.runUnit steps unit).1.fault? = some f) :
    (∃ sig m, Escapes s.job ([.unit unit], s.machine) sig m ∧ f = s.lastFault sig) ∨
      f.cause = .stackUnderflow ∨ ∃ i j, f.cause = .stackImbalance i j := by
  have abandoned {m : Machine} {g : Fault} (hf : (s.abandon m g).1.fault? = some f) : f = g := by
    simp only [abandon] at hf
    split at hf <;> exact (Option.some.inj hf).symm
  unfold runUnit at hf
  cases hd : drive s.job steps [.unit unit] s.machine with
  | completed m =>
    rw [hd] at hf
    have result : Exec.wp (Exec.result (s.job.program.tree.mode unit) s.machine.stack.size)
        (fun _ _ => True) (fun sig _ => ∃ g, sig = .fault g ∧
          (g.cause = .stackUnderflow ∨ ∃ i j, g.cause = .stackImbalance i j)) m := by
      simp only [Exec.result, Exec.wp_bind, Exec.wp_ite, Exec.wp_pure, Exec.wp_depth, Exec.wp_pop,
        Exec.wp_fail]
      exact ⟨fun _ => ⟨fun _ => ⟨_, rfl, .inr ⟨_, _, rfl⟩⟩, fun _ => trivial⟩, fun _ =>
        ⟨fun _ _ _ => ⟨fun _ => ⟨_, rfl, .inr ⟨_, _, rfl⟩⟩, fun _ => trivial⟩,
          fun _ => ⟨_, rfl, .inl rfl⟩⟩⟩
    simp only [conclude] at hf
    split at hf
    · cases hf
    · next hr =>
      obtain ⟨g, rfl, hg⟩ := Exec.wp_error result hr
      rw [abandoned hf]
      exact .inr hg
  | escaped sig m =>
    rw [hd] at hf
    exact .inl ⟨sig, m, escapes_of_escaped hd, abandoned hf⟩
  | unfinished A m =>
    rw [hd] at hf
    cases hf

end Session

/-- The states that the runs of a session pass through. -/
inductive Underway (job : Job) (units : NodeId → Prop) : Agenda → Machine → Prop where
  | run {s : Session} (h : Session.Reached job units s) :
      Underway job units [.unit job.program.root] s.machine
  | resume {s : Session} (h : Session.Reached job units s) {unit : NodeId} (hu : units unit) :
      Underway job units [.unit unit] s.atRest.machine
  | step {A A' : Agenda} {m m' : Machine} (h : Underway job units A m)
      (hs : Does job (A, m) (A', m')) : Underway job units A' m'

theorem Underway.runs {units : NodeId → Prop} {A A' : Agenda} {m m' : Machine}
    (h : Underway job units A m) (hr : Runs job (A, m) (A', m')) : Underway job units A' m' := by
  generalize hx : (A, m) = x at hr
  generalize hy : (A', m') = y at hr
  induction hr generalizing A' m' with
  | refl =>
    cases hx.trans hy.symm
    exact h
  | tail _ hs ih =>
    subst hy
    exact .step (ih rfl) hs

end Algol68
