import Algol68.Proofs.Collateral.Housed
import Algol68.Proofs.Collateral.Tasks
import Algol68.Proofs.Run.Segment

/-! The evaluation of a unit does not depend on what lies on the stack beneath it. A unit that takes
nothing of what was there evaluates the same units in the same order on any lower footing, does the same
to the store, the frames and what is printed, and ends in the same way. -/

namespace Algol68

variable {job : Job}

theorem LabelledClause.resume_clean {c : LabelledClause} {target : Option NodeId} {f : Fault}
    (h : c.resume job target = .error f) : f.cause.ofStack = false := by
  obtain ⟨label, rfl⟩ := resume_eq_error h
  rfl

/-- A jump that leaves an agenda was raised as it is, and nothing there takes it. -/
theorem unwind_escaped_jump {s : Signal} {j : Jump} {A : Agenda} {m m' : Machine}
    (h : unwind job s A m = .escaped (.jump j) m') : s = .jump j ∧ ∀ t ∈ A, ¬ t.takes j := by
  have not_fault (f : Fault) (B : Agenda) (n : Machine) :
      unwind job (.fault f) B n ≠ .escaped (.jump j) m' := by
    obtain ⟨f', -, hf⟩ := @unwind_fault job f B n
    simp [hf]
  cases s with
  | fault f => exact absurd h (not_fault f A m)
  | jump i =>
    rcases exists_first_takes i A with hn | ⟨before, c, after, rfl, hb, hc⟩
    · rw [unwind_jump_of_not_takes hn] at h
      cases h
      exact ⟨rfl, hn⟩
    · rw [unwind_jump_of_takes hb hc] at h
      split at h
      · cases h
      · exact absurd h (not_fault _ _ _)

/-! Signals pass an agenda in the same way on every footing. -/

namespace Footing

variable {G : Footing} {A : Agenda} {m : Machine}

@[simp] theorem jump_frame (j : Jump) : (G.jump j).frame = j.frame := by
  unfold jump
  split <;> rfl

@[simp] theorem jump_target (j : Jump) : (G.jump j).target = j.target := by
  unfold jump
  split <;> rfl

@[simp] theorem clause_takes {c : LabelledClause} {j : Jump} :
    (G.clause c).takes (G.jump j) ↔ c.takes j := by
  unfold jump
  split <;> rfl

theorem resume (c : LabelledClause) (target : Option NodeId) :
    (G.clause c).resume job target = G.agenda <$> c.resume job target := by
  cases target with
  | none => rfl
  | some unit =>
    by_cases h : (job.program.tree.walk (some unit) c.items).pending.isSome
    · simp only [LabelledClause.resume, clause, h, if_true]
      rfl
    · simp only [LabelledClause.resume, clause, h, Bool.false_eq_true, if_false]
      refine congrArg Except.ok ?_
      rw [G.agenda_append, G.agenda_steps]
      rfl

/-- A signal that was carried down an agenda. -/
def unwound (G : Footing) : Unwound → Unwound
  | .resumed A m => .resumed (G.agenda A) (G.machine m)
  | .escaped s m => .escaped (G.signal s) (G.machine m)

/-- The clauses that run on the agenda were entered since. -/
def Entered (next : Nat) (A : Agenda) : Prop := ∀ c, .labelled c ∈ A → next ≤ c.activation

theorem undo (t : Task) (m : Machine) : (G.task t).undo (G.machine m) = G.machine (t.undo m) := by
  cases t with
  | leave depth => simp [Task.undo, task, machine]
  | _ => rfl

theorem caught {c : LabelledClause} {j : Jump} (hj : G.next ≤ j.frame) (m : Machine) :
    (G.clause c).caught (G.jump j) (G.machine m) = G.machine (c.caught j m) := by
  have raised : (G.jump j).baseline = j.baseline + G.height := by
    rw [jump, if_pos hj]
  simp only [LabelledClause.caught, raised, machine_shrink]
  simp [machine, clause]

theorem unwind (s : Signal) (hA : Entered G.next A) (m : Machine) :
    Algol68.unwind job (G.signal s) (G.agenda A) (G.machine m) =
      G.unwound (Algol68.unwind job s A m) := by
  induction A generalizing s m with
  | nil => rfl
  | cons t A ih =>
    have rest : Entered G.next A := fun c hc => hA c (List.mem_cons_of_mem _ hc)
    have on (s : Signal) := ih s rest (t.undo m)
    rw [← G.undo] at on
    cases s with
    | fault f =>
      cases t with
      | settle node | within node =>
        have located := on (.fault (f.locate (job.program.tree.span node) m.calls))
        rw [signal, ← Fault.locate_above] at located
        exact located
      | _ => exact on (.fault f)
    | jump j =>
      cases t with
      | labelled c =>
        by_cases hc : c.takes j
        · have hj : G.next ≤ j.frame := hc.2 ▸ hA c (List.mem_cons_self ..)
          have here := @unwind_jump_of_takes job j [] A c m (by simp) hc
          have there := @unwind_jump_of_takes job _ [] (G.agenda A) _ (G.machine m) (by simp)
            (G.clause_takes.mpr hc)
          rw [G.jump_target, G.resume, Machine.undo_nil, G.caught hj] at there
          refine there.trans ?_
          rw [show Task.labelled c :: A = [] ++ .labelled c :: A from rfl, here]
          cases hw : c.resume job j.target with
          | ok work =>
            exact congrArg (Unwound.resumed · _) (G.agenda_append work A).symm
          | error f =>
            have clean := LabelledClause.resume_clean hw
            have passed := ih (.fault f) rest (c.caught j m)
            rw [Exec.Level.signal_of_clean clean] at passed
            exact passed
        · have not : ¬ (j.owner = c.serial ∧ j.frame = c.activation) := hc
          have not' : ¬ ((G.jump j).owner = c.serial ∧ (G.jump j).frame = c.activation) :=
            fun h => hc (G.clause_takes.mp h)
          have passed := ih (.jump j) rest m
          simp only [agenda, List.map_cons, task, signal, clause, Algol68.unwind, if_neg not,
            if_neg not'] at passed ⊢
          exact passed
      | _ => exact on (.jump j)

end Footing

/-! What a run shows. -/

/-- A frame with nothing said of the depth of the stack. -/
def Frame.apart (f : Frame) : Frame :=
  { f with resumption := f.resumption.map fun r => { r with baseline := 0 } }

/-- A machine apart from its stack. -/
def Machine.apart (m : Machine) : Machine := { m with
  stack := #[]
  frames := ⟨m.frames.frames.map Frame.apart, m.frames.nextSerial⟩ }

/-- What is seen of a state: that the evaluation of a unit begins or has come to its end, and the machine
apart from its stack. -/
def seen : Agenda × Machine → List (Task × Machine)
  | (.unit n :: _, m) => [(.unit n, m.apart)]
  | (.settle n :: _, m) => [(.settle n, m.apart)]
  | (.within n :: _, m) => [(.within n, m.apart)]
  | _ => []

/-- What is seen of the states that a run passes, in order. -/
inductive Shows (job : Job) (x : Agenda × Machine) : List (Task × Machine) → Agenda × Machine → Prop
    where
  | start : Shows job x [] x
  | step {L : List (Task × Machine)} {y z : Agenda × Machine} (h : Shows job x L y)
      (hs : Does job y z) : Shows job x (L ++ seen y) z

variable {x y z : Agenda × Machine} {L L' : List (Task × Machine)} {A B : Agenda} {m m' : Machine}
  {s s' : Signal} {t : Task}

theorem Shows.runs (h : Shows job x L y) : Runs job x y := by
  induction h with
  | start => exact .refl
  | step _ hs ih => exact ih.tail hs

theorem Runs.shows (h : Runs job x y) : ∃ L, Shows job x L y := by
  induction h with
  | refl => exact ⟨[], .start⟩
  | tail _ hs ih =>
    obtain ⟨L, hL⟩ := ih
    exact ⟨_, hL.step hs⟩

theorem Shows.trans (h : Shows job x L y) (h' : Shows job y L' z) : Shows job x (L ++ L') z := by
  induction h' with
  | start => simpa using h
  | step _ hs ih =>
    rw [← List.append_assoc]
    exact ih.step hs

theorem seen_append (t : Task) (A B : Agenda) (m : Machine) :
    seen (t :: A ++ B, m) = seen (t :: A, m) := by
  cases t <;> rfl

theorem Shows.append (h : Shows job x L y) (B : Agenda) :
    Shows job (x.1 ++ B, x.2) L (y.1 ++ B, y.2) := by
  induction h with
  | start => exact .start
  | @step L y z _ hs ih =>
    obtain ⟨Y, my⟩ := y
    cases Y with
    | nil => cases hs
    | cons t Y =>
      rw [← seen_append t Y B my]
      exact ih.step (hs.append B)

@[simp] theorem Footing.machine_apart (G : Footing) (m : Machine) :
    (G.machine m).apart = m.apart := by
  have frame (f : Frame) : (G.frame f).apart = f.apart := by
    unfold frame Frame.apart
    split
    · cases f.resumption <;> rfl
    · rfl
  simp [Machine.apart, machine, frames, Function.comp_def, frame]

theorem Footing.seen (G : Footing) (A : Agenda) (m : Machine) :
    seen (G.agenda A, G.machine m) = seen (A, m) := by
  cases A with
  | nil => rfl
  | cons t A => cases t <;> simp [agenda, task, Algol68.seen]

/-! The evaluation of one unit. -/

/-- The unit takes nothing of what is on the stack when its evaluation begins. -/
def TakesOwn (job : Job) (u : NodeId) (m : Machine) : Prop :=
  ∀ t A m', Runs job ([.unit u], m) (t :: A, m') → m.stack.size + t.taken ≤ m'.stack.size

/-- The stack does not reach its limit on the way. -/
def HasRoom (job : Job) (x : Agenda × Machine) : Prop :=
  ∀ f m', Escapes job x (.fault f) m' →
    f.cause ≠ .expressionStackOverflow job.config.stackLimit

theorem HasRoom.not_overflows (h : HasRoom job (t :: A, m)) : ¬ Exec.Overflows job (t.exec job) m := by
  rintro ⟨m₁, he⟩
  obtain ⟨f, hf, hu⟩ := @unwind_fault job (.of (.expressionStackOverflow job.config.stackLimit)) A m₁
  exact h f _ ⟨t, A, m, m₁, _, .refl, he, hu⟩ hf

theorem HasRoom.runs (h : HasRoom job x) (hr : Runs job x y) : HasRoom job y :=
  fun f m' he => h f m' (he.of_runs hr)

namespace Footing

variable {F G : Footing} {u : NodeId} {r : Machine}

@[simp] theorem task_taken (t : Task) : (G.task t).taken = t.taken := by
  cases t with
  | coerce kind => cases kind <;> rfl
  | _ => rfl

/-- How one step of an evaluation goes on every footing: to the same state, or to the same end. -/
inductive Goes (job : Job) (F : Footing) (t : Task) (A : Agenda) (m : Machine) : Prop where
  | on (A' : Agenda) (m' : Machine) (h : ∀ G : Footing, G.Below F →
      Does job (G.agenda (t :: A), G.machine m) (G.agenda A', G.machine m'))
  | out (s : Signal) (m' : Machine) (hj : ∀ j, s = .jump j → j.frame < F.next)
      (h : ∀ G : Footing, G.Below F → ∃ s₀ m₁, (G.task t).exec job (G.machine m) = .error s₀ m₁ ∧
        Algol68.unwind job s₀ (G.agenda A) m₁ = .escaped (G.signal s) (G.machine m'))

theorem goes {n : Machine} (hF : F.next = n.frames.nextSerial)
    (hin : Inside job n (F.agenda (t :: A)) (F.machine m)) (taken : t.taken ≤ m.stack.size)
    (room : ¬ Exec.Overflows job ((F.task t).exec job) (F.machine m)) : Goes job F t A m := by
  have finds : Exec.Finds F t m := by
    refine ⟨taken, ?_⟩
    rintro node enquiry rfl i f hi hf
    rw [hF, ← F.frame_serial f]
    refine hin.clause (i := i) ?_ ?_
    · rw [F.machine_frames, F.frames_top, hi]
    · rw [F.machine_frames, F.frames_getElem?, hf, Option.map_some]
  have entered : Entered F.next A := by
    intro c hc
    have mem : F.task (.labelled c) ∈ F.agenda (t :: A) :=
      List.mem_map_of_mem (List.mem_cons_of_mem _ hc)
    rw [hF]
    exact hin.activation (c := F.clause c) mem
  rcases Exec.exec_level finds with hover | ⟨o, ho⟩
  · exact absurd hover room
  cases o with
  | ok work m' =>
    refine .on (work ++ A) m' fun G hG => ?_
    rw [G.agenda_append]
    exact .done (ho G hG)
  | error s m' =>
    have signals (G : Footing) (hG : G.Below F) :
        Algol68.unwind job (G.signal s) (G.agenda A) (G.machine m') =
          G.unwound (Algol68.unwind job s A m') := G.unwind s (hG.next ▸ entered) m'
    cases hu : Algol68.unwind job s A m' with
    | resumed A' m'' =>
      refine .on A' m'' fun G hG => .resumed (ho G hG) ((signals G hG).trans ?_)
      rw [hu]
      rfl
    | escaped s' m'' =>
      refine .out s' m'' ?_ fun G hG => ⟨_, _, ho G hG, (signals G hG).trans ?_⟩
      · rintro j rfl
        obtain ⟨rfl, hj⟩ := unwind_escaped_jump hu
        rw [hF, ← F.jump_frame j]
        refine hin.jump (ho F (.refl F)) fun t ht taken => ?_
        obtain ⟨t, mem, rfl⟩ := List.mem_map.mp ht
        cases t with
        | labelled c => exact hj _ mem (F.clause_takes.mp taken)
        | _ => exact taken
      · rw [hu]
        rfl

/-- A unit about to be evaluated on a footing, which it keeps to: its evaluation takes nothing of it, and
the stack does not reach its limit. -/
structure Carries (job : Job) (F : Footing) (u : NodeId) (m : Machine) : Prop where
  consistent : Consistent job [.unit u] (F.machine m)
  next : F.next = m.frames.nextSerial
  empty : m.stack = #[]
  own : TakesOwn job u (F.machine m)
  room : HasRoom job ([.unit u], F.machine m)

namespace Carries

theorem goes (h : F.Carries job u r)
    (hr : Runs job ([.unit u], F.machine r) (F.agenda (t :: A), F.machine m)) :
    Goes job F t A m := by
  refine Footing.goes (n := F.machine r) h.next (h.consistent.inside hr) ?_ (h.room.runs hr).not_overflows
  have own := h.own (F.task t) (F.agenda A) _ hr
  rw [F.machine_size, F.machine_size, F.task_taken, h.empty] at own
  simp only [Array.size_empty] at own
  omega

/-- Whatever the evaluation shows on one footing, it shows on every other one. -/
theorem shows (h : F.Carries job u r) (hG : G.Below F)
    (hs : Shows job ([.unit u], G.machine r) L y) : ∃ A m, y = (G.agenda A, G.machine m) ∧
      ∀ G' : Footing, G'.Below F →
        Shows job ([.unit u], G'.machine r) L (G'.agenda A, G'.machine m) := by
  induction hs with
  | start => exact ⟨[.unit u], r, rfl, fun _ _ => .start⟩
  | @step L y z _ hd ih =>
    obtain ⟨A, m, rfl, all⟩ := ih
    cases A with
    | nil => cases hd
    | cons t A =>
      rcases h.goes (all F (.refl F)).runs with ⟨A', m', hstep⟩ | ⟨s, m', -, hend⟩
      · refine ⟨A', m', hd.unique (hstep G hG), fun G' hG' => ?_⟩
        rw [G.seen, ← G'.seen]
        exact (all G' hG').step (hstep G' hG')
      · obtain ⟨s₀, m₁, he, hu⟩ := hend G hG
        exact absurd hd (Final.of_escaped he hu _)

/-- However the evaluation ends early on one footing, it does on every other one. -/
theorem escapes (h : F.Carries job u r) (hG : G.Below F)
    (he : Escapes job ([.unit u], G.machine r) s m') : ∃ (s₀ : Signal) (m : Machine),
      s = s₀.above G.height ∧
      m' = G.machine m ∧ ∀ G' : Footing, G'.Below F →
        Escapes job ([.unit u], G'.machine r) (s₀.above G'.height) (G'.machine m) := by
  obtain ⟨t, rest, m₀, m₁, s₁, hr, hx, hu⟩ := he
  obtain ⟨L, hL⟩ := hr.shows
  obtain ⟨A, m, heq, all⟩ := h.shows hG hL
  cases A with
  | nil => cases heq
  | cons t' A =>
    rcases h.goes (all F (.refl F)).runs with ⟨A', m'', hstep⟩ | ⟨s₀, m'', hj, hend⟩
    · have final := Final.of_escaped hx hu
      rw [heq] at final
      exact absurd (hstep G hG) (final _)
    · have above (G' : Footing) (hG' : G'.Below F) : G'.signal s₀ = s₀.above G'.height := by
        cases s₀ with
        | fault f => rfl
        | jump j =>
          have old : ¬ G'.next ≤ j.frame := Nat.not_le.mpr (hG'.next ▸ hj j rfl)
          simp only [signal, jump, if_neg old, Signal.above]
      have ends (G' : Footing) (hG' : G'.Below F) :
          Escapes job ([.unit u], G'.machine r) (s₀.above G'.height) (G'.machine m'') := by
        obtain ⟨s', m', hx, hu⟩ := hend G' hG'
        rw [above G' hG'] at hu
        exact ⟨_, _, _, _, _, (all G' hG').runs, hx, hu⟩
      obtain ⟨rfl, rfl⟩ := Escapes.unique ⟨t, rest, m₀, m₁, s₁, hr, hx, hu⟩ (ends G hG)
      exact ⟨s₀, m'', rfl, rfl, ends⟩

end Carries

end Footing

end Algol68
