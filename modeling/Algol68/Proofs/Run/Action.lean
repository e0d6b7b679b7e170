import Algol68.Proofs.Frames.Run

/-! The actions of a session. Each begins and ends with a clean machine and reports the fault that ends
it, so an action after a fault is one like any other. What becomes of a fault is all that depends on
the evaluation mode. -/

namespace Algol68

variable {job : Job} {mode : EvalMode} {units : NodeId → Prop}

/-! The evaluation mode plays no part in a run. -/

def Job.inMode (job : Job) (mode : EvalMode) : Job :=
  { job with config := { job.config with mode := mode } }

namespace Exec

theorem gather_inMode (p : Purpose) (found : List (Option Int64)) (wanted : List (Option NodeId)) :
    gather (job.inMode mode) p found wanted = gather job p found wanted := by
  induction wanted generalizing found with
  | nil => cases p <;> rfl
  | cons unit wanted ih =>
    cases unit with
    | none => exact ih _
    | some unit => rfl

theorem accepting_inMode (variant : ModeId) (ns : List NodeId) :
    accepting (job.inMode mode) variant ns = accepting job variant ns := by
  induction ns with
  | nil => rfl
  | cons n ns ih =>
    simp only [accepting, ih]
    rfl

theorem exec_inMode (t : Task) : t.exec (job.inMode mode) = t.exec job := by
  cases t with
  | elaborate node =>
    simp only [Task.exec, elaborate, gather_inMode]
    rfl
  | conform alternatives outPart m =>
    simp only [Task.exec, conform, accepting_inMode]
    rfl
  | take g => simp only [Task.exec, take, gather_inMode]
  | indexers nodes =>
    simp only [Task.exec, indexers, gather_inMode]
    rfl
  | _ => rfl

end Exec

theorem unwind_inMode (s : Signal) (A : Agenda) (m : Machine) :
    unwind (job.inMode mode) s A m = unwind job s A m := by
  induction A generalizing s m with
  | nil => rfl
  | cons t A ih =>
    cases s <;> cases t <;> simp only [unwind, ih] <;> rfl

theorem drive_inMode (steps : Nat) (A : Agenda) (m : Machine) :
    drive (job.inMode mode) steps A m = drive job steps A m := by
  induction steps generalizing A m with
  | zero => cases A <;> rfl
  | succ steps ih =>
    cases A with
    | nil => rfl
    | cons t A => simp only [drive, Exec.exec_inMode, unwind_inMode, ih]

/-- How an action that ends in a fault ends. -/
def Outcome.ofFault : EvalMode → Fault → Outcome
  | .run, f => .failed f
  | .monitor, f => .trapped f

/-- The outcome in another mode. -/
def Outcome.inMode (mode : EvalMode) : Outcome → Outcome
  | .trapped f | .failed f => .ofFault mode f
  | o => o

/-- What a session is asked to do. -/
inductive Action where
  | run
  | resume (unit : NodeId)

namespace Session

/-- The session with another mode. -/
def inMode (s : Session) (mode : EvalMode) : Session := { s with job := s.job.inMode mode }

def act (s : Session) (steps : Nat) : Action → Outcome × Session
  | .run => s.run steps
  | .resume unit => s.resume steps unit

/-- One action after another: how each of them ends, and what the session is then. -/
def acts (steps : Nat) : Session → List Action → List (Outcome × Session)
  | _, [] => []
  | s, a :: rest => s.act steps a :: acts steps (s.act steps a).2 rest

theorem abandon_eq (s : Session) (m : Machine) (f : Fault) :
    (s.abandon m f).1 = .ofFault s.job.config.mode f := by
  simp only [abandon, Outcome.ofFault]
  cases s.job.config.mode <;> rfl

theorem abandon_inMode (s : Session) (m : Machine) (f : Fault) :
    (s.inMode mode).abandon m f = ((s.abandon m f).1.inMode mode, (s.abandon m f).2.inMode mode) := by
  apply Prod.ext
  · rw [abandon_eq, abandon_eq]
    cases s.job.config.mode <;> rfl
  · rfl

theorem runUnit_inMode (s : Session) (steps : Nat) (unit : NodeId) :
    (s.inMode mode).runUnit steps unit =
      ((s.runUnit steps unit).1.inMode mode, (s.runUnit steps unit).2.inMode mode) := by
  have same : drive (s.inMode mode).job steps [.unit unit] (s.inMode mode).machine =
      drive s.job steps [.unit unit] s.machine := drive_inMode steps _ _
  rw [runUnit, same, runUnit]
  cases drive s.job steps [.unit unit] s.machine with
  | completed m =>
    have same : Exec.result ((s.inMode mode).job.program.tree.mode unit)
        (s.inMode mode).machine.stack.size m =
        Exec.result (s.job.program.tree.mode unit) s.machine.stack.size m := rfl
    simp only [conclude, same]
    cases Exec.result (s.job.program.tree.mode unit) s.machine.stack.size m with
    | ok v m => rfl
    | error signal m => exact abandon_inMode s m _
  | escaped signal m => exact abandon_inMode s m _
  | unfinished A m => rfl

theorem act_inMode (s : Session) (steps : Nat) (a : Action) :
    (s.inMode mode).act steps a = ((s.act steps a).1.inMode mode, (s.act steps a).2.inMode mode) := by
  cases a with
  | run => exact runUnit_inMode s steps _
  | resume unit => exact runUnit_inMode s.atRest steps unit

theorem acts_inMode (s : Session) (steps : Nat) (actions : List Action) :
    (s.inMode mode).acts steps actions =
      (s.acts steps actions).map fun x => (x.1.inMode mode, x.2.inMode mode) := by
  induction actions generalizing s with
  | nil => rfl
  | cons a actions ih =>
    rw [acts, acts, act_inMode, List.map_cons]
    simp only [ih]

theorem Reached.inMode {s : Session} (h : Reached job units s) (mode : EvalMode) :
    Reached (job.inMode mode) units (s.inMode mode) := by
  have ended {o : Outcome} (ho : o.ended) : (o.inMode mode).ended := by
    cases o with
    | completed | unfinished => exact ho
    | trapped | failed => cases mode <;> rfl
  induction h with
  | new source keepsText => exact .new source keepsText
  | @run s h steps he ih =>
    have hs : (s.inMode mode).run steps = _ := runUnit_inMode s steps _
    have := ih.run steps (by rw [hs]; exact ended he)
    rwa [hs] at this
  | @resume s h steps unit hu he ih =>
    have hs : (s.inMode mode).resume steps unit = _ := runUnit_inMode s.atRest steps unit
    have := ih.resume steps unit hu (by rw [hs]; exact ended he)
    rwa [hs] at this
  | clear h ih => exact ih.clear

end Session

/-- The machine between two actions: no values on the stack, no frame but that of the standard
environ, in which no clause runs, and no calls. -/
structure Machine.Clean (job : Job) (m : Machine) : Prop where
  stack : m.stack = #[]
  frames : ∃ locals : Array Value, m.frames.frames = #[⟨.standard, 0, none, 0, locals, none⟩] ∧
    locals.size = (job.program.scopes.get .standard).locals.size
  calls : m.calls = []

theorem Machine.Idle.clean {m : Machine} (h : m.Idle job) (hs : m.stack = #[]) : m.Clean job := by
  refine ⟨hs, ?_, h.calls⟩
  obtain ⟨f, hf⟩ := Array.size_eq_one_iff.mp h.depth
  have outline : m.frames.hollow = [f.hollow] := by simp [FrameStack.hollow, hf]
  obtain ⟨g, hg, hscope, hlevel, hlink, hserial, hr⟩ := h.sound.base
  have hsize := h.sound.sized 0 g hg
  have hg : m.frames.hollow[0]? = some g := hg
  rw [outline, List.getElem?_cons_zero, Option.some.injEq] at hg
  subst hg
  rw [hscope] at hsize
  refine ⟨f.locals, ?_, by simpa [Frame.hollow] using hsize⟩
  rw [hf]
  cases f
  simp_all [Frame.hollow]

namespace Session

/-- An action that ends takes all it put on the stack from it. -/
theorem runUnit_stack {s : Session} (h : s.machine.stack = #[]) {steps : Nat} {unit : NodeId}
    (he : (s.runUnit steps unit).1.ended) : (s.runUnit steps unit).2.machine.stack = #[] := by
  have abandoned (m : Machine) (f : Fault) : (s.abandon m f).2.machine.stack = #[] := by
    simp [abandon, h]
  unfold runUnit at he ⊢
  cases hd : drive s.job steps [.unit unit] s.machine with
  | completed m =>
    have size : Exec.wp (Exec.result (s.job.program.tree.mode unit) s.machine.stack.size)
        (fun _ m' => m'.stack.size = s.machine.stack.size) (fun _ _ => True) m := by
      simp [Exec.result]
    simp only [conclude]
    split
    · next hr =>
      have := Exec.wp_ok size hr
      rw [h] at this
      exact Array.eq_empty_of_size_eq_zero this
    · exact abandoned _ _
  | escaped signal m => exact abandoned _ _
  | unfinished A m =>
    rw [hd] at he
    cases he

theorem Reached.stack {s : Session} (h : Reached job units s) : s.machine.stack = #[] := by
  induction h with
  | new => rfl
  | run _ steps he ih => exact runUnit_stack ih he
  | resume _ steps unit _ he ih => exact runUnit_stack (s := Session.atRest _) rfl he
  | clear _ ih => exact ih

theorem Reached.clean {s : Session} (h : Reached job units s) : s.machine.Clean job :=
  h.idle.clean h.stack

theorem atRest_eq {s : Session} (h : s.machine.Clean job) : s.atRest = s := by
  obtain ⟨locals, hf, -⟩ := h.frames
  obtain ⟨job, source, ⟨stack, ⟨frames, next⟩, store, annotations, calls, transput, counters⟩,
    reported⟩ := s
  obtain rfl : stack = #[] := h.stack
  obtain rfl : calls = [] := h.calls
  obtain rfl : frames = _ := hf
  rfl

/-- A session reports the fault that ends an action, and nothing else. -/
theorem runUnit_reported (s : Session) (steps : Nat) (unit : NodeId) :
    (s.runUnit steps unit).2.reported =
      s.reported ++ ((s.runUnit steps unit).1.fault?.map (.ofFault s.source)).toList := by
  have abandoned (m : Machine) (f : Fault) : (s.abandon m f).2.reported =
      s.reported ++ ((s.abandon m f).1.fault?.map (.ofFault s.source)).toList := by
    rw [abandon_eq]
    cases s.job.config.mode <;> rfl
  have nothing : s.reported = s.reported ++ (none.map (Diagnostic.ofFault s.source)).toList := by simp
  unfold runUnit
  cases drive s.job steps [.unit unit] s.machine with
  | completed m =>
    simp only [conclude]
    split
    · exact nothing
    · exact abandoned _ _
  | escaped signal m => exact abandoned _ _
  | unfinished A m => exact nothing

end Session

/-- Whatever actions a session was asked for, its machine is clean, and is clean again after the next
action that ends; that action reports the fault it ends in, if any, and nothing else; to resume with a
unit is to run the unit; and in the other mode the same actions lead to the same session and go on to
do the same, but for what becomes of the faults. -/
theorem actions_clean {s : Session} (h : Session.Reached job units s) :
    s.machine.Clean job ∧
    (∀ steps a, (s.act steps a).1.ended →
      (s.act steps a).2.machine.Clean job ∧ (s.act steps a).2.reported =
        s.reported ++ ((s.act steps a).1.fault?.map (.ofFault s.source)).toList) ∧
    (∀ steps unit, s.resume steps unit = s.runUnit steps unit) ∧
    ∀ mode, Session.Reached (job.inMode mode) units (s.inMode mode) ∧ ∀ steps actions,
      (s.inMode mode).acts steps actions =
        (s.acts steps actions).map fun x => (x.1.inMode mode, x.2.inMode mode) := by
  have rest := Session.atRest_eq h.clean
  refine ⟨h.clean, ?_, ?_, ?_⟩
  · intro steps a he
    have unit (u : NodeId) (he : (s.runUnit steps u).1.ended) :
        (s.runUnit steps u).2.machine.Clean job ∧ (s.runUnit steps u).2.reported =
          s.reported ++ ((s.runUnit steps u).1.fault?.map (.ofFault s.source)).toList := by
      have idle : s.machine.Idle s.job := h.job_eq ▸ h.idle
      have clean := (Session.idle_of_ended idle he).clean (Session.runUnit_stack h.stack he)
      rw [h.job_eq] at clean
      exact ⟨clean, Session.runUnit_reported s steps u⟩
    cases a with
    | run => exact unit _ he
    | resume u =>
      have same : s.act steps (.resume u) = s.runUnit steps u := by
        rw [Session.act, Session.resume, rest]
      rw [same] at he ⊢
      exact unit u he
  · intro steps unit
    rw [Session.resume, rest]
  · intro mode
    exact ⟨h.inMode mode, fun steps actions => Session.acts_inMode s steps actions⟩

/-- The program `(ASSERT FALSE)`, and a skip to resume with, under a monitor. -/
def refusal : Job where
  program := {
    tree := {
      nodes := #[⟨.literal (.bool false), .bool, .dummy⟩, ⟨.assertion ⟨0⟩, .void, ⟨10, 22⟩⟩,
        ⟨.serialClause ⟨1⟩ ⟨0, 1⟩, .void, .dummy⟩, ⟨.closed ⟨1⟩ ⟨2⟩, .void, .dummy⟩,
        ⟨.skip, .void, .dummy⟩]
      lists := #[⟨1⟩]
      modeLists := #[]
      loops := #[]
      alternatives := #[] }
    modes := .new
    scopes := ⟨#[.standard, ⟨some .standard, 1, #[], false⟩]⟩
    labels := ⟨#[]⟩
    interner := .new
    root := ⟨3⟩
    environs := #[] }
  oracle := ModeTable.oracle .new
  config := { Config.default with mode := .monitor }

/-- The assertion of `refusal` is trapped, and its program can be resumed. -/
theorem refusal_clean : ∃ s, Session.Reached refusal (fun _ => False) s ∧
    s.reported.length = 1 ∧ s.machine.Clean refusal ∧
    (s.act 3 (.resume ⟨4⟩)).1.ended ∧ (s.act 3 (.resume ⟨4⟩)).2.machine.Clean refusal ∧
    (s.act 3 (.resume ⟨4⟩)).2.reported.length = 1 := by
  obtain ⟨s, h, one, resumed, completed⟩ : ∃ s, Session.Reached refusal (fun _ => False) s ∧
      s.reported.length = 1 ∧ (s.act 3 (.resume ⟨4⟩)).1.ended ∧
      (s.act 3 (.resume ⟨4⟩)).1.fault? = none := by
    have trapped : ((Session.new refusal none false).run 12).1.ended := by decide +kernel
    exact ⟨_, .run (.new none false) 12 trapped, by decide +kernel, by decide +kernel,
      by decide +kernel⟩
  obtain ⟨clean, next, -, -⟩ := actions_clean h
  obtain ⟨clean', reported⟩ := next 3 (.resume ⟨4⟩) resumed
  rw [completed] at reported
  refine ⟨s, h, one, clean, resumed, clean', ?_⟩
  rw [reported]
  simpa using one

end Algol68
