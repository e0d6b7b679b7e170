import Algol68.Proofs.Machine.Outcome
import Algol68.Proofs.Run.Segment

/-! One iteration of a loop. Between a bound test and the next the machine is in the `while`, the `do` or
the `until` part, or about to step the counter; every step leads on to the next of these, to the end
of the loop, or to the next test. -/

namespace Algol68

variable {job : Job}

/-- An enquiry clause is run to its end and yields a truth value. -/
def Enquires (job : Job) (enquiry : NodeId) (m : Machine) (answer : Bool) (m' : Machine) : Prop :=
  ∃ m₁, Runs job ([.clause enquiry true], m) ([], m₁) ∧ Exec.popBool m₁ = .ok answer m'

/-- An optional enquiry is absent or yields the answer with which an iteration goes on. -/
def GoesOn (job : Job) (answer : Bool) (part : Option NodeId) (m m' : Machine) : Prop :=
  match part with
  | none => m' = m
  | some enquiry => Enquires job enquiry m answer m'

theorem Enquires.unique {enquiry : NodeId} {b : Bool} {m m₁ m₂ : Machine}
    (h : Enquires job enquiry m b m₁) (h' : Enquires job enquiry m b m₂) : m₁ = m₂ := by
  obtain ⟨n, hr, hp⟩ := h
  obtain ⟨n', hr', hp'⟩ := h'
  obtain rfl := hr.unique hr'
  cases hp.symm.trans hp'
  rfl

theorem GoesOn.unique {part : Option NodeId} {b : Bool} {m m₁ m₂ : Machine}
    (h : GoesOn job b part m m₁) (h' : GoesOn job b part m m₂) : m₁ = m₂ := by
  cases part with
  | none => exact h.trans h'.symm
  | some enquiry => exact Enquires.unique h h'

/-- What an iteration begins with: the counter is given its value, and the locals of the body are
made undefined. -/
def Exec.begin (job : Job) (i : Iteration) : Exec Unit := do
  setCounter i
  renewBody job i

namespace Iteration

variable {i j : Iteration} {A : Agenda} {m m' : Machine} {x y : Agenda × Machine}
  {t : Task}

/-- The iteration once it has begun. -/
def begun (i : Iteration) : Iteration := { i with first := false }

/-- The tasks behind the `do` part. -/
def closing (i : Iteration) : Agenda :=
  match i.parts.untilPart with
  | some enquiry => [.clause enquiry true, .afterUntil i]
  | none => [.advance i]

/-- The tasks of an iteration. -/
def opening (i : Iteration) : Agenda :=
  match i.parts.whilePart with
  | some enquiry => [.clause enquiry true, .afterWhile i]
  | none => .clause i.parts.doPart false :: i.closing

/-- The iteration after this one, unless the counter overflows. -/
def next? (i : Iteration) : Option Iteration :=
  if i.parts.steps then
    (narrow? (i.counter.toInt + i.step.toInt)).map fun c => { i with counter := c }
  else some i

/-- The iteration runs through: its `while` part yields true, its `do` part completes and its `until`
part does not yield true. -/
inductive Round (job : Job) (i : Iteration) : Machine → Machine → Prop where
  | intro {m m₁ m₂ m₃ m₄ : Machine} (begins : Exec.begin job i m = .ok () m₁)
      (asked : GoesOn job true i.parts.whilePart m₁ m₂)
      (ran : Runs job ([.clause i.parts.doPart false], m₂) ([], m₃))
      (untold : GoesOn job false i.parts.untilPart m₃ m₄) : Round job i m m₄

/-- The loop ends with this iteration: its counter is outside the bounds, its `while` part yields false or
its `until` part yields true. -/
inductive Ends (job : Job) (i : Iteration) : Machine → Machine → Prop where
  | outside {m : Machine} (h : i.admits = false) : Ends job i m m
  | refused {m m₁ m₂ : Machine} {enquiry : NodeId} (h : i.admits)
      (begins : Exec.begin job i m = .ok () m₁) (part : i.parts.whilePart = some enquiry)
      (refused : Enquires job enquiry m₁ false m₂) : Ends job i m m₂
  | told {m m₁ m₂ m₃ m₄ : Machine} {enquiry : NodeId} (h : i.admits)
      (begins : Exec.begin job i m = .ok () m₁)
      (asked : GoesOn job true i.parts.whilePart m₁ m₂)
      (ran : Runs job ([.clause i.parts.doPart false], m₂) ([], m₃))
      (part : i.parts.untilPart = some enquiry) (told : Enquires job enquiry m₃ true m₄) :
      Ends job i m m₄

/-- The states of a run between the bound test of an iteration, in machine `m`, and the next. -/
inductive Amid (job : Job) (i : Iteration) (m : Machine) : Agenda × Machine → Prop where
  | asking {m₁ m' : Machine} {enquiry : NodeId} {A : Agenda} (h : i.admits)
      (begins : Exec.begin job i m = .ok () m₁) (part : i.parts.whilePart = some enquiry)
      (hr : Runs job ([.clause enquiry true], m₁) (A, m')) :
      Amid job i m (A ++ [.afterWhile i.begun], m')
  | doing {m₁ m₂ m' : Machine} {A : Agenda} (h : i.admits)
      (begins : Exec.begin job i m = .ok () m₁)
      (asked : GoesOn job true i.parts.whilePart m₁ m₂)
      (hr : Runs job ([.clause i.parts.doPart false], m₂) (A, m')) :
      Amid job i m (A ++ i.begun.closing, m')
  | checking {m₁ m₂ m₃ m' : Machine} {enquiry : NodeId} {A : Agenda} (h : i.admits)
      (begins : Exec.begin job i m = .ok () m₁)
      (asked : GoesOn job true i.parts.whilePart m₁ m₂)
      (ran : Runs job ([.clause i.parts.doPart false], m₂) ([], m₃))
      (part : i.parts.untilPart = some enquiry)
      (hr : Runs job ([.clause enquiry true], m₃) (A, m')) :
      Amid job i m (A ++ [.afterUntil i.begun], m')
  | stepping {m' : Machine} (h : i.admits) (round : Round job i m m') :
      Amid job i m ([.advance i.begun], m')
  | ended {m' : Machine} (h : Ends job i m m') : Amid job i m ([], m')

theorem Round.unique {m₁ m₂ : Machine} (h : Round job i m m₁) (h' : Round job i m m₂) : m₁ = m₂ := by
  obtain ⟨begins, asked, ran, untold⟩ := h
  obtain ⟨begins', asked', ran', untold'⟩ := h'
  cases begins.symm.trans begins'
  obtain rfl := asked.unique asked'
  obtain rfl := ran.unique ran'
  exact untold.unique untold'

/-! The tasks of a loop. -/

theorem exec_iterate (job : Job) (i : Iteration) (m : Machine) :
    (Task.iterate i).exec job m =
      if i.admits then
        match Exec.begin job i m with
        | .ok _ m' => .ok i.begun.opening m'
        | .error s m' => .error s m'
      else .ok [] m := by
  simp only [Task.exec, Exec.iterate, Exec.begin]
  split
  · simp only [bind, EStateM.bind]
    cases Exec.setCounter i m with
    | error s m' => rfl
    | ok _ m' =>
      cases hr : Exec.renewBody job i m' with
      | error s m'' => simp only [hr]
      | ok _ m'' =>
        simp only [hr, opening, begun]
        cases i.parts.whilePart <;> rfl
  · rfl

theorem exec_afterWhile_iff {work : Agenda} : (Task.afterWhile i).exec job m = .ok work m' ↔
    ∃ b, Exec.popBool m = .ok b m' ∧
      work = if b then .clause i.parts.doPart false :: i.closing else [] := by
  simp only [Task.exec, Exec.afterWhile, bind, EStateM.bind]
  cases Exec.popBool m with
  | error s n => simp
  | ok b n =>
    constructor
    · intro h
      cases h
      exact ⟨b, rfl, rfl⟩
    · rintro ⟨_, h, rfl⟩
      cases h
      rfl

theorem exec_afterUntil_iff {work : Agenda} : (Task.afterUntil i).exec job m = .ok work m' ↔
    ∃ b, Exec.popBool m = .ok b m' ∧ work = if b then [] else [.advance i] := by
  simp only [Task.exec, Exec.afterUntil, bind, EStateM.bind]
  cases Exec.popBool m with
  | error s n => simp
  | ok b n =>
    constructor
    · intro h
      cases h
      exact ⟨b, rfl, rfl⟩
    · rintro ⟨_, h, rfl⟩
      cases h
      rfl

theorem exec_advance (job : Job) (i : Iteration) (m : Machine) :
    (Task.advance i).exec job m =
      match i.next? with
      | some j => .ok [.iterate j] m
      | none => .error (.fault (.of (.integerOverflow "loop counter"))) m := by
  change Exec.advance i m = _
  unfold Exec.advance next?
  by_cases hs : i.parts.steps
  · rw [if_pos hs, if_pos hs]
    cases narrow? (i.counter.toInt + i.step.toInt) <;> rfl
  · rw [if_neg hs, if_neg hs]
    rfl

theorem closing_of_none (h : i.parts.untilPart = none) : i.begun.closing = [.advance i.begun] := by
  simp only [closing, begun, h]

theorem closing_of_some {enquiry : NodeId} (h : i.parts.untilPart = some enquiry) :
    i.begun.closing = [.clause enquiry true, .afterUntil i.begun] := by
  simp only [closing, begun, h]

theorem closing_unlabelled (i : Iteration) : i.closing.Unlabelled := by
  intro c
  rw [closing]
  split <;> simp

/-- The first task of an iteration is its `while` part, or its `do` part if there is none. -/
theorem opening_head? (i : Iteration) : i.begun.opening.head? =
    some (match i.parts.whilePart with
      | some enquiry => .clause enquiry true
      | none => .clause i.parts.doPart false) := by
  simp only [opening, begun]
  cases i.parts.whilePart <;> rfl

theorem amid_of_does (h : Does job ([.iterate i], m) y) : Amid job i m y := by
  obtain ⟨Y, m'⟩ := y
  have he : (Task.iterate i).exec job m = .ok Y m' := does_single_iff.mp h
  rw [exec_iterate] at he
  split at he
  · next hi =>
    split at he
    · next m₁ hb =>
      cases he
      cases hw : i.parts.whilePart with
      | some enquiry =>
        simp only [opening, begun, hw]
        exact .asking (A := [.clause enquiry true]) hi hb hw .refl
      | none =>
        simp only [opening, begun, hw]
        exact .doing (A := [.clause i.parts.doPart false]) hi hb (by rw [hw]; rfl) .refl
    · cases he
  · next hi =>
    cases he
    exact .ended (.outside (by simpa using hi))

/-- What a step inside an iteration leads to. -/
def Amid.Or (job : Job) (i : Iteration) (m : Machine) (y : Agenda × Machine) : Prop :=
  Amid job i m y ∨
    ∃ m' j, i.admits ∧ Round job i m m' ∧ i.begun.next? = some j ∧ y = ([.iterate j], m')

theorem step_of_stepping (hi : i.admits) (round : Round job i m m')
    (hs : Does job ([.advance i.begun], m') y) : Amid.Or job i m y := by
  obtain ⟨Y, my⟩ := y
  have he : (Task.advance i.begun).exec job m' = .ok Y my := does_single_iff.mp hs
  rw [exec_advance] at he
  split at he
  · next j hj =>
    cases he
    exact .inr ⟨_, j, hi, round, hj, rfl⟩
  · cases he

theorem step_of_checking {m₁ m₂ m₃ : Machine} {enquiry : NodeId} (hi : i.admits)
    (begins : Exec.begin job i m = .ok () m₁) (asked : GoesOn job true i.parts.whilePart m₁ m₂)
    (ran : Runs job ([.clause i.parts.doPart false], m₂) ([], m₃))
    (part : i.parts.untilPart = some enquiry)
    (hr : Runs job ([.clause enquiry true], m₃) (A, m'))
    (hs : Does job (A ++ [.afterUntil i.begun], m') y) : Amid job i m y := by
  obtain ⟨Y, my⟩ := y
  cases A with
  | nil =>
    obtain ⟨b, hp, hY⟩ := exec_afterUntil_iff.mp (does_single_iff.mp hs)
    obtain rfl : Y = if b then [] else [.advance i.begun] := hY
    have told : Enquires job enquiry m₃ b my := ⟨m', hr, hp⟩
    cases b with
    | true => exact .ended (.told hi begins asked ran part told)
    | false => exact .stepping hi (.intro begins asked ran (by rw [part]; exact told))
  | cons t A =>
    obtain ⟨A', rfl, hd⟩ := hs.cut (unlabelled_single (t := .afterUntil i.begun) (by simp))
    exact .checking hi begins asked ran part (hr.tail hd)

/-- A step inside an iteration stays in it, ends the loop, or leads to the next bound test. -/
theorem Amid.step (h : Amid job i m x) (hs : Does job x y) : Amid.Or job i m y := by
  obtain ⟨Y, my⟩ := y
  cases h with
  | @asking m₁ m' enquiry A hi hb hw hr =>
    cases A with
    | nil =>
      obtain ⟨b, hp, hY⟩ := exec_afterWhile_iff.mp (does_single_iff.mp hs)
      obtain rfl : Y = if b then .clause i.parts.doPart false :: i.begun.closing else [] := hY
      have asked : Enquires job enquiry m₁ b my := ⟨m', hr, hp⟩
      cases b with
      | true => exact .inl (.doing (A := [_]) hi hb (by rw [hw]; exact asked) .refl)
      | false => exact .inl (.ended (.refused hi hb hw asked))
    | cons t A =>
      obtain ⟨A', rfl, hd⟩ := hs.cut (unlabelled_single (t := .afterWhile i.begun) (by simp))
      exact .inl (.asking hi hb hw (hr.tail hd))
  | @doing m₁ m₂ m' A hi hb ha hr =>
    cases A with
    | nil =>
      -- the `do` part is done, so the first task behind it is
      cases hu : i.parts.untilPart with
      | none =>
        rw [closing_of_none hu] at hs
        exact step_of_stepping hi (.intro hb ha hr (by rw [hu]; rfl)) hs
      | some enquiry =>
        rw [closing_of_some hu] at hs
        exact .inl (step_of_checking (A := [_]) hi hb ha hr hu .refl hs)
    | cons t A =>
      obtain ⟨A', rfl, hd⟩ := hs.cut i.begun.closing_unlabelled
      exact .inl (.doing hi hb ha (hr.tail hd))
  | checking hi hb ha ran hu hr => exact .inl (step_of_checking hi hb ha ran hu hr hs)
  | stepping hi round => exact step_of_stepping hi round hs
  | ended h => cases hs

/-! The way through an iteration. -/

/-- A run that comes by no bound test, but that it may end at one. -/
abbrev Passes (job : Job) : Agenda × Machine → Agenda × Machine → Prop :=
  Relation.ReflTransGen fun x y => Does job x y ∧ ∀ i, x.1 ≠ [.iterate i]

theorem Passes.runs (h : Passes job x y) : Runs job x y := h.lift id fun _ _ hs => hs.1

/-- In front of another task there is no bound test but those of inner loops. -/
theorem Passes.of_runs {A' B : Agenda} (h : Runs job (A, m) (A', m')) (ht : t ∈ B)
    (hi : ∀ i, t ≠ .iterate i) : Passes job (A ++ B, m) (A' ++ B, m') := by
  refine h.lift (fun x => (x.1 ++ B, x.2)) fun x y hs => ?_
  refine ⟨hs.append B, fun i heq => ?_⟩
  have mem : t ∈ x.1 ++ B := List.mem_append_right _ ht
  have heq : x.1 ++ B = [.iterate i] := heq
  rw [heq] at mem
  exact hi i (List.mem_singleton.mp mem)

theorem Passes.of_does (hs : Does job (t :: A, m) y) (hi : ∀ i, t ≠ .iterate i) :
    Passes job (t :: A, m) y :=
  .single ⟨hs, fun i heq => hi i (List.cons.inj heq).1⟩

/-- The run goes on from the bound test of `i`, in machine `m`, and comes to `y` before the next. -/
def Goes (job : Job) (i : Iteration) (m : Machine) (y : Agenda × Machine) : Prop :=
  ∃ x, Does job ([.iterate i], m) x ∧ Passes job x y

theorem Goes.trans (h : Goes job i m x) (hp : Passes job x y) : Goes job i m y := by
  obtain ⟨x₀, hs, hx⟩ := h
  exact ⟨x₀, hs, hx.trans hp⟩

theorem Goes.of_begin {m₁ : Machine} (hi : i.admits) (begins : Exec.begin job i m = .ok () m₁) :
    Goes job i m (i.begun.opening, m₁) := by
  refine ⟨_, does_single_iff.mpr ?_, .refl⟩
  rw [exec_iterate, if_pos hi, begins]

theorem opening_of_some {enquiry : NodeId} (h : i.parts.whilePart = some enquiry) :
    i.begun.opening = [.clause enquiry true, .afterWhile i.begun] := by
  simp only [opening, begun, h]

theorem opening_of_none (h : i.parts.whilePart = none) :
    i.begun.opening = .clause i.parts.doPart false :: i.begun.closing := by
  simp only [opening, begun, h]

theorem goes_asked {m₁ m₂ : Machine} {enquiry : NodeId} {b : Bool} (hi : i.admits)
    (begins : Exec.begin job i m = .ok () m₁) (part : i.parts.whilePart = some enquiry)
    (asked : Enquires job enquiry m₁ b m₂) :
    Goes job i m (if b then .clause i.parts.doPart false :: i.begun.closing else [], m₂) := by
  obtain ⟨n, hr, hp⟩ := asked
  have goes := Goes.of_begin hi begins
  rw [opening_of_some part] at goes
  refine (goes.trans (.of_runs (A := [_]) (B := [_]) hr (List.mem_singleton_self _) (by simp))).trans ?_
  exact .of_does (does_single_iff.mpr (exec_afterWhile_iff.mpr ⟨b, hp, rfl⟩)) (by simp)

theorem goes_to_do {m₁ m₂ : Machine} (hi : i.admits) (begins : Exec.begin job i m = .ok () m₁)
    (asked : GoesOn job true i.parts.whilePart m₁ m₂) :
    Goes job i m (.clause i.parts.doPart false :: i.begun.closing, m₂) := by
  cases hw : i.parts.whilePart with
  | none =>
    rw [hw] at asked
    obtain rfl : m₂ = m₁ := asked
    have goes := Goes.of_begin hi begins
    rwa [opening_of_none hw] at goes
  | some enquiry =>
    rw [hw] at asked
    exact goes_asked hi begins hw asked

theorem exists_mem_closing (i : Iteration) : ∃ t ∈ i.closing, ∀ j, t ≠ .iterate j := by
  rw [closing]
  split
  · exact ⟨_, List.mem_cons_self .., by simp⟩
  · exact ⟨_, List.mem_cons_self .., by simp⟩

theorem goes_doing {m₁ m₂ : Machine} (hi : i.admits) (begins : Exec.begin job i m = .ok () m₁)
    (asked : GoesOn job true i.parts.whilePart m₁ m₂)
    (hr : Runs job ([.clause i.parts.doPart false], m₂) (A, m')) :
    Goes job i m (A ++ i.begun.closing, m') := by
  obtain ⟨t, ht, htest⟩ := i.begun.exists_mem_closing
  exact (goes_to_do hi begins asked).trans (.of_runs (A := [_]) hr ht htest)

theorem goes_checking {m₁ m₂ m₃ : Machine} {enquiry : NodeId} (hi : i.admits)
    (begins : Exec.begin job i m = .ok () m₁) (asked : GoesOn job true i.parts.whilePart m₁ m₂)
    (ran : Runs job ([.clause i.parts.doPart false], m₂) ([], m₃))
    (part : i.parts.untilPart = some enquiry)
    (hr : Runs job ([.clause enquiry true], m₃) (A, m')) :
    Goes job i m (A ++ [.afterUntil i.begun], m') := by
  have goes := goes_doing hi begins asked ran
  rw [closing_of_some part] at goes
  exact goes.trans (.of_runs (A := [_]) (B := [_]) hr (List.mem_singleton_self _) (by simp))

theorem goes_checked {m₁ m₂ m₃ m₄ : Machine} {enquiry : NodeId} {b : Bool} (hi : i.admits)
    (begins : Exec.begin job i m = .ok () m₁) (asked : GoesOn job true i.parts.whilePart m₁ m₂)
    (ran : Runs job ([.clause i.parts.doPart false], m₂) ([], m₃))
    (part : i.parts.untilPart = some enquiry) (told : Enquires job enquiry m₃ b m₄) :
    Goes job i m (if b then [] else [.advance i.begun], m₄) := by
  obtain ⟨n, hr, hp⟩ := told
  refine (goes_checking hi begins asked ran part hr).trans ?_
  exact .of_does (does_single_iff.mpr (exec_afterUntil_iff.mpr ⟨b, hp, rfl⟩)) (by simp)

theorem Round.goes (hi : i.admits) (h : Round job i m m') : Goes job i m ([.advance i.begun], m') := by
  obtain ⟨begins, asked, ran, untold⟩ := h
  cases hu : i.parts.untilPart with
  | none =>
    rw [hu] at untold
    obtain rfl := untold
    have goes := goes_doing hi begins asked ran
    rwa [closing_of_none hu] at goes
  | some enquiry =>
    rw [hu] at untold
    exact goes_checked hi begins asked ran hu untold

theorem Ends.goes (h : Ends job i m m') : Goes job i m ([], m') := by
  cases h with
  | outside hi =>
    refine ⟨_, does_single_iff.mpr ?_, .refl⟩
    rw [exec_iterate, if_neg (by simp [hi])]
  | refused hi begins part refused => exact goes_asked hi begins part refused
  | told hi begins asked ran part told => exact goes_checked hi begins asked ran part told

/-- After an iteration that ran through comes the test of the next. -/
theorem Round.goes_next (hi : i.admits) (h : Round job i m m') (hj : i.begun.next? = some j) :
    Goes job i m ([.iterate j], m') := by
  refine (h.goes hi).trans (.of_does (does_single_iff.mpr ?_) (by simp))
  rw [exec_advance, hj]

theorem Round.overflows (hi : i.admits) (h : Round job i m m') (hj : i.begun.next? = none) :
    Escapes job ([.iterate i], m) (.fault (.of (.integerOverflow "loop counter"))) m' := by
  obtain ⟨x, hs, hp⟩ := h.goes hi
  refine .of_does hs (.of_runs hp.runs ⟨_, _, m', m', _, .refl, ?_, rfl⟩)
  rw [exec_advance, hj]

end Iteration

end Algol68
