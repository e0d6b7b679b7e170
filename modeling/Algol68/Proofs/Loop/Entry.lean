import Algol68.Proofs.Frames.Run
import Algol68.Proofs.Loop.Course

/-! The way into a loop. The start, the step and the limit are evaluated one after the other; then the
frame of the counter is opened and in it that of the body, and the first bound test is made. -/

namespace Algol68

open Exec (wp)

variable {job : Job}

/-- An optional part that yields an integer: it is absent, or its unit is evaluated to the end and the
integer it left is taken from the stack. -/
inductive Part (job : Job) : Option NodeId → Machine → Option Int64 → Machine → Prop where
  | absent (m : Machine) : Part job none m none m
  | present {unit : NodeId} {m m₁ m₂ : Machine} {n : Int64}
      (evaluated : Runs job ([.unit unit], m) ([], m₁)) (taken : Exec.popInt m₁ = .ok n m₂) :
      Part job (some unit) m (some n) m₂

theorem Part.unique {part : Option NodeId} {n n' : Option Int64} {m m₁ m₂ : Machine}
    (h : Part job part m n m₁) (h' : Part job part m n' m₂) : n = n' ∧ m₁ = m₂ := by
  cases h with
  | absent =>
    cases h'
    exact ⟨rfl, rfl⟩
  | present evaluated taken =>
    cases h' with
    | present evaluated' taken' =>
      obtain rfl := evaluated.unique evaluated'
      cases taken.symm.trans taken'
      exact ⟨rfl, rfl⟩

/-- Several such parts, one after the other. -/
inductive Parts (job : Job) : List (Option NodeId) → Machine → List (Option Int64) → Machine → Prop where
  | nil (m : Machine) : Parts job [] m [] m
  | cons {part : Option NodeId} {parts : List (Option NodeId)} {n : Option Int64}
      {ns : List (Option Int64)} {m m₁ m₂ : Machine} (first : Part job part m n m₁)
      (others : Parts job parts m₁ ns m₂) : Parts job (part :: parts) m (n :: ns) m₂

/-- Whether a task stands before the first bound test of a loop. -/
def Task.enters : Task → Bool
  | .take _ | .enterLoop _ | .enterBody _ => true
  | _ => false

/-- The machine after a frame for a range was opened inside the innermost one. -/
def Machine.entered (job : Job) (m : Machine) (scope : ScopeId) : Machine := { m with
  frames := m.frames.push scope (job.program.scopes.get scope).level (some (m.frames.depth - 1))
    (job.program.freshLocals scope) }

namespace LoopParts

variable {parts : LoopParts} {i j : Iteration} {m m' : Machine} {y : Agenda × Machine}

/-- A loop begins with its first bound test: its start, its step and its limit were evaluated in this
order, and its two frames were opened. -/
inductive Entered (job : Job) (parts : LoopParts) (m : Machine) : Iteration → Machine → Prop where
  | intro {start step limit : Option Int64} {m₁ m₂ m₃ m₄ m₅ : Machine} {outer body : Nat}
      (hstart : Part job parts.fromPart m start m₁) (hstep : Part job parts.byPart m₁ step m₂)
      (hlimit : Part job parts.toPart m₂ limit m₃)
      (houter : Exec.enter job parts.scope m₃ = .ok outer m₄)
      (hbody : Exec.enter job parts.bodyScope m₄ = .ok body m₅) :
      Entered job parts m
        { parts := parts
          step := step.getD 1
          limit := limit.getD (if 0 ≤ step.getD 1 then Int64.maxValue else Int64.minValue)
          counter := start.getD 1
          body := body
          first := true } m₅

theorem Entered.unique {i' : Iteration} {m₁ m₂ : Machine}
    (h : Entered job parts m i m₁) (h' : Entered job parts m i' m₂) : i = i' ∧ m₁ = m₂ := by
  obtain ⟨hstart, hstep, hlimit, houter, hbody⟩ := h
  obtain ⟨hstart', hstep', hlimit', houter', hbody'⟩ := h'
  obtain ⟨rfl, rfl⟩ := hstart.unique hstart'
  obtain ⟨rfl, rfl⟩ := hstep.unique hstep'
  obtain ⟨rfl, rfl⟩ := hlimit.unique hlimit'
  cases houter.symm.trans houter'
  cases hbody.symm.trans hbody'
  exact ⟨rfl, rfl⟩

/-- The tasks that are left of a loop when some of its integers are found. -/
def asking (parts : LoopParts) : List (Option Int64) → List (Option NodeId) → Agenda
  | found, [] => [.enterLoop (.ofParts parts found)]
  | found, none :: wanted => parts.asking (found ++ [none]) wanted
  | found, some unit :: wanted => [.unit unit, .take ⟨.loop parts, found, wanted⟩]

/-- The tasks of a loop. -/
def work (parts : LoopParts) : Agenda := parts.asking [] [parts.fromPart, parts.byPart, parts.toPart]

theorem gather_loop (parts : LoopParts) (found : List (Option Int64))
    (wanted : List (Option NodeId)) (m : Machine) :
    Exec.gather job (.loop parts) found wanted m = .ok (parts.asking found wanted) m := by
  induction wanted generalizing found with
  | nil => rfl
  | cons part wanted ih =>
    cases part with
    | none => exact ih _
    | some unit => rfl

theorem exec_elaborate {n : NodeId} {id : LoopId} (hk : job.program.tree.kind n = .loop id)
    (m : Machine) : (Task.elaborate n).exec job m =
      .ok ((job.program.tree.loopParts id).work ++
        [.yields (job.program.tree.mode n) m.stack.size]) m := by
  have gathers := @gather_loop job (job.program.tree.loopParts id) []
    [(job.program.tree.loopParts id).fromPart, (job.program.tree.loopParts id).byPart,
      (job.program.tree.loopParts id).toPart] m
  refine Exec.eq_ok_of_wp ?_
  simp only [Task.exec, Exec.elaborate, hk, Exec.wp_bind, Exec.wp_depth]
  simp only [wp, gathers]
  exact ⟨rfl, rfl⟩

theorem exec_take_iff {found : List (Option Int64)} {wanted : List (Option NodeId)}
    {work : Agenda} : (Task.take ⟨.loop parts, found, wanted⟩).exec job m = .ok work m' ↔
      ∃ n, Exec.popInt m = .ok n m' ∧ work = parts.asking (found ++ [some n]) wanted := by
  simp only [Task.exec, Exec.take, bind, EStateM.bind]
  cases Exec.popInt m with
  | error s m₁ => simp
  | ok n m₁ =>
    simp only [gather_loop]
    constructor
    · intro h
      cases h
      exact ⟨n, rfl, rfl⟩
    · rintro ⟨_, h, rfl⟩
      cases h
      rfl

theorem runs_asking {found ns : List (Option Int64)} {wanted : List (Option NodeId)}
    (h : Parts job wanted m ns m') :
    Runs job (parts.asking found wanted, m) ([.enterLoop (.ofParts parts (found ++ ns))], m') := by
  induction h generalizing found with
  | nil =>
    rw [List.append_nil]
    exact .refl
  | @cons part wanted n ns m m₁ m₂ first others ih =>
    have rest := @ih (found ++ [n])
    rw [List.append_assoc] at rest
    cases first with
    | absent => exact rest
    | @present unit _ m₀ _ n evaluated taken =>
      have takes : Does job ([.take ⟨.loop parts, found, wanted⟩], m₀)
          (parts.asking (found ++ [some n]) wanted, m₁) :=
        does_single_iff.mpr (exec_take_iff.mpr ⟨n, taken, rfl⟩)
      exact (evaluated.append [.take ⟨.loop parts, found, wanted⟩]).trans (.head takes rest)

/-- As long as the integers of a loop are not found, one of them is still to be taken. -/
theorem exists_parts {found : List (Option Int64)} {wanted : List (Option NodeId)}
    (h : Runs job (parts.asking found wanted, m) y) :
    (∃ t ∈ y.1, t.enters) ∨ ∃ ns m', Parts job wanted m ns m' ∧
      Runs job ([.enterLoop (.ofParts parts (found ++ ns))], m') y := by
  induction wanted generalizing found m with
  | nil => exact .inr ⟨[], m, .nil m, by rwa [List.append_nil]⟩
  | cons part wanted ih =>
    have further {n : Option Int64} {m₁ : Machine} (first : Part job part m n m₁)
        (hr : Runs job (parts.asking (found ++ [n]) wanted, m₁) y) :
        (∃ t ∈ y.1, t.enters) ∨ ∃ ns m', Parts job (part :: wanted) m ns m' ∧
          Runs job ([.enterLoop (.ofParts parts (found ++ ns))], m') y := by
      rcases ih hr with enters | ⟨ns, m', others, hr'⟩
      · exact .inl enters
      · rw [List.append_assoc] at hr'
        exact .inr ⟨n :: ns, m', .cons first others, hr'⟩
    cases part with
    | none => exact further (.absent m) h
    | some unit =>
      have h : Runs job ([.unit unit] ++ [.take ⟨.loop parts, found, wanted⟩], m) y := h
      rcases h.cut (unlabelled_single (t := .take _) (by simp)) with ⟨A, hA, -⟩ | ⟨m₁, evaluated, hr⟩
      · exact .inl ⟨_, by rw [hA]; exact List.mem_append_right _ (List.mem_singleton_self _), rfl⟩
      · rcases Relation.ReflTransGen.cases_head hr with rfl | ⟨z, hs, hr⟩
        · exact .inl ⟨_, List.mem_singleton_self _, rfl⟩
        · obtain ⟨Z, m₂⟩ := z
          obtain ⟨n, taken, hZ⟩ := exec_take_iff.mp (does_single_iff.mp hs)
          obtain rfl : Z = parts.asking (found ++ [some n]) wanted := hZ
          exact further (.present evaluated taken) hr

/-! The frames of a loop. -/

theorem enter_eq_ok {scope : ScopeId} {depth : Nat} (h : Exec.enter job scope m = .ok depth m') :
    depth = m.frames.depth ∧ 0 < m.frames.depth ∧ m' = m.entered job scope := by
  have opens : wp (Exec.enter job scope)
      (fun d n => d = m.frames.depth ∧ 0 < m.frames.depth ∧ n = m.entered job scope)
      (fun _ _ => True) m := by
    simp only [Exec.enter, Exec.wp_bind, Exec.wp_get, Exec.wp_lift, Exec.wp_enterAt]
    refine ⟨fun link hl => ⟨fun _ _ => ?_, fun _ _ => trivial⟩, fun _ _ => trivial⟩
    simp only [FrameStack.top] at hl
    split at hl
    · cases hl
    · next hne =>
      cases hl
      have pos : 0 < m.frames.depth := by
        simpa [FrameStack.depth, Array.size_pos_iff] using hne
      exact ⟨trivial, pos, rfl⟩
  exact Exec.wp_ok opens h

theorem exec_enterLoop_iff {work : Agenda} : (Task.enterLoop i).exec job m = .ok work m' ↔
    ∃ outer, Exec.enter job i.parts.scope m = .ok outer m' ∧ work = [.enterBody i, .leave outer] := by
  simp only [Task.exec, Exec.enterLoop, bind, EStateM.bind]
  cases Exec.enter job i.parts.scope m with
  | error s m₁ => simp
  | ok outer m₁ =>
    constructor
    · intro h
      cases h
      exact ⟨outer, rfl, rfl⟩
    · rintro ⟨_, h, rfl⟩
      cases h
      rfl

theorem exec_enterBody_iff {work : Agenda} : (Task.enterBody i).exec job m = .ok work m' ↔
    ∃ body, Exec.enter job i.parts.bodyScope m = .ok body m' ∧
      work = [.iterate { i with body := body }, .leave body] := by
  simp only [Task.exec, Exec.enterBody, bind, EStateM.bind]
  cases Exec.enter job i.parts.bodyScope m with
  | error s m₁ => simp
  | ok body m₁ =>
    constructor
    · intro h
      cases h
      exact ⟨body, rfl, rfl⟩
    · rintro ⟨_, h, rfl⟩
      cases h
      rfl

/-- The ends of the two frames of a loop. -/
def ending (body : Nat) : Agenda := [.leave body, .leave (body - 1)]

theorem ending_unlabelled (body : Nat) : (ending body).Unlabelled := by
  intro c
  simp [ending]

theorem outer_eq {outer body : Nat} {m₁ m₂ : Machine} {scope scope' : ScopeId}
    (houter : Exec.enter job scope m = .ok outer m₁) (hbody : Exec.enter job scope' m₁ = .ok body m₂) :
    outer = body - 1 := by
  obtain ⟨rfl, -, rfl⟩ := enter_eq_ok houter
  obtain ⟨rfl, -, -⟩ := enter_eq_ok hbody
  simp [Machine.entered, FrameStack.depth, FrameStack.push]

theorem Entered.runs (h : Entered job parts m i m') :
    Runs job (parts.work, m) (.iterate i :: ending i.body, m') := by
  obtain @⟨start, step, limit, m₁, m₂, m₃, m₄, _, outer, body, hstart, hstep, hlimit, houter, hbody⟩ := h
  have found : Parts job [parts.fromPart, parts.byPart, parts.toPart] m [start, step, limit] m₃ :=
    .cons hstart (.cons hstep (.cons hlimit (.nil m₃)))
  have opens : Does job ([.enterLoop (.ofParts parts [start, step, limit])], m₃)
      ([.enterBody (.ofParts parts [start, step, limit]), .leave outer], m₄) :=
    does_single_iff.mpr (exec_enterLoop_iff.mpr ⟨outer, houter, rfl⟩)
  have opens' : Does job ([.enterBody (.ofParts parts [start, step, limit])], m₄)
      ([.iterate { Iteration.ofParts parts [start, step, limit] with body := body }, .leave body], m') :=
    does_single_iff.mpr (exec_enterBody_iff.mpr ⟨body, hbody, rfl⟩)
  have asks : Runs job (parts.work, m) ([.enterLoop (.ofParts parts [start, step, limit])], m₃) :=
    runs_asking found
  have runs := asks.trans (.head opens (.single (opens'.append [.leave outer])))
  rw [outer_eq houter hbody] at runs
  exact runs

/-- A state on the way through a loop stands before the first bound test, or the loop was entered and
the run goes on from that test. -/
theorem exists_entered (h : Runs job (parts.work, m) y) :
    (∃ t ∈ y.1, t.enters) ∨
      ∃ i m', Entered job parts m i m' ∧ Runs job (.iterate i :: ending i.body, m') y := by
  rcases exists_parts h with enters | ⟨ns, m₃, found, hr⟩
  · exact .inl enters
  rcases found with _ | ⟨hstart, _ | ⟨hstep, _ | ⟨hlimit, others⟩⟩⟩
  cases others
  rcases Relation.ReflTransGen.cases_head hr with rfl | ⟨⟨Z, m₄⟩, hs, hr⟩
  · exact .inl ⟨_, List.mem_singleton_self _, rfl⟩
  obtain ⟨outer, houter, hZ⟩ := exec_enterLoop_iff.mp (does_single_iff.mp hs)
  subst hZ
  rcases Relation.ReflTransGen.cases_head hr with rfl | ⟨⟨Z, m₅⟩, hs, hr⟩
  · exact .inl ⟨_, List.mem_cons_self .., rfl⟩
  obtain ⟨A, hZ, hd⟩ := hs.cut (A := []) (B := [_]) (unlabelled_single (t := .leave outer) (by simp))
  obtain ⟨body, hbody, hA⟩ := exec_enterBody_iff.mp (does_single_iff.mp hd)
  subst hZ hA
  refine .inr ⟨_, m₅, .intro hstart hstep hlimit houter hbody, ?_⟩
  rw [ending, ← outer_eq houter hbody]
  exact hr

end LoopParts

/-! The loop as a unit. -/

/-- Whether a task closes a frame or checks the stack. -/
def Task.closes : Task → Bool
  | .leave _ | .yields .. => true
  | _ => false

/-- Frames are closed and the stack is checked without further work. -/
theorem Runs.closes {A : Agenda} {m : Machine} {y : Agenda × Machine} (hA : ∀ t ∈ A, t.closes)
    (h : Runs job (A, m) y) : ∀ t ∈ y.1, t.closes := by
  induction h with
  | refl => exact hA
  | @tail y z _ hs ih =>
    cases hs with
    | @done t work rest m₁ m₂ he =>
      have idle : work = [] := by
        have ht := ih t (List.mem_cons_self ..)
        cases t with
        | leave depth =>
          cases he
          rfl
        | yields mode depth =>
          have yields : wp ((Task.yields mode depth).exec job) (fun work _ => work = [])
              (fun _ _ => True) m₁ := by
            simp [Task.exec, Exec.yields]
          exact Exec.wp_ok yields he
        | _ => cases ht
      rw [idle]
      exact fun u hu => ih u (List.mem_cons_of_mem _ hu)
    | resumed he hu =>
      obtain ⟨_, before, c, after, _, -, rfl, -⟩ := unwind_resumed hu
      have labelled : (Task.labelled c).closes := ih _ (by simp)
      cases labelled

namespace LoopParts

variable {parts : LoopParts} {i j : Iteration} {m m' : Machine} {y : Agenda × Machine}
  {n : NodeId} {id : LoopId}

theorem ending_closes (body : Nat) : ∀ t ∈ ending body, t.closes := by
  simp [ending, Task.closes]

theorem body_eq_of_runs (h : Runs job ([.iterate i], m) ([.iterate j], m')) : j.body = i.body := by
  obtain ⟨k, arrives⟩ := Iteration.runs_iterate_iff.mp h
  obtain ⟨-, rfl⟩ := Iteration.arrives_iff.mp arrives
  rfl

theorem elaborates (hk : job.program.tree.kind n = .loop id) (m : Machine) :
    Does job ([.elaborate n], m) ((job.program.tree.loopParts id).work ++
      [.yields (job.program.tree.mode n) m.stack.size], m) :=
  does_single_iff.mpr (exec_elaborate hk m)

/-- The bound tests of a loop are those that the run comes to after the loop was entered. -/
theorem runs_loop_iff (hk : job.program.tree.kind n = .loop id) :
    Runs job ([.elaborate n], m)
        (.iterate j :: ending j.body ++ [.yields (job.program.tree.mode n) m.stack.size], m') ↔
      ∃ i m₁, Entered job (job.program.tree.loopParts id) m i m₁ ∧
        Runs job ([.iterate i], m₁) ([.iterate j], m') := by
  constructor
  · intro h
    rcases Relation.ReflTransGen.cases_head h with heq | ⟨z, hs, hr⟩
    · cases heq
    obtain rfl := hs.unique (elaborates hk m)
    have checks : Agenda.Unlabelled [.yields (job.program.tree.mode n) m.stack.size] :=
      unlabelled_single (by simp)
    rcases Runs.cut checks hr with ⟨A, hA, hr⟩ | ⟨m₁, -, hr⟩
    · obtain rfl : .iterate j :: ending j.body = A := List.append_cancel_right hA
      rcases exists_entered hr with ⟨t, ht, henters⟩ | ⟨i, m₁, entered, hr⟩
      · simp only [ending, List.mem_cons, List.not_mem_nil, or_false] at ht
        rcases ht with rfl | rfl | rfl <;> cases henters
      · refine ⟨i, m₁, entered, ?_⟩
        rcases hr.cut (A := [_]) (ending_unlabelled i.body) with ⟨A, hA, hr⟩ | ⟨m₂, -, hr⟩
        · have same : [.iterate j] ++ ending j.body = A ++ ending i.body := hA
          obtain ⟨rfl, -⟩ := List.append_inj' same rfl
          exact hr
        · cases hr.closes (ending_closes i.body) _ (List.mem_cons_self ..)
    · cases hr.closes (by simp [Task.closes]) (.iterate j) (by simp)
  · rintro ⟨i, m₁, entered, hr⟩
    have runs : Runs job (_, m) (_, m') := entered.runs.trans (hr.append (ending i.body))
    rw [← body_eq_of_runs hr] at runs
    exact .head (elaborates hk m) (runs.append [.yields (job.program.tree.mode n) m.stack.size])

theorem truncate_truncate (s : FrameStack) {a b : Nat} (h : b ≤ a) :
    (s.truncate a).truncate b = s.truncate b := by
  refine congrArg (FrameStack.mk · s.nextSerial) (Array.ext' ?_)
  simp [FrameStack.truncate, Nat.min_eq_left h]

theorem Entered.completes (hk : job.program.tree.kind n = .loop id) {m₁ : Machine}
    (h : Entered job (job.program.tree.loopParts id) m i m₁)
    (hr : Runs job ([.iterate i], m₁) ([], m')) :
    Runs job ([.elaborate n], m) ([.yields (job.program.tree.mode n) m.stack.size],
      { m' with frames := m'.frames.truncate (i.body - 1) }) := by
  have leaves : Runs job (ending i.body, m')
      ([], { m' with frames := (m'.frames.truncate i.body).truncate (i.body - 1) }) :=
    .head (@Does.done job _ [] _ m' _ rfl) (.single (does_single_iff.mpr rfl))
  rw [truncate_truncate _ (Nat.sub_le ..)] at leaves
  have runs : Runs job ((job.program.tree.loopParts id).work, m)
      ([], { m' with frames := m'.frames.truncate (i.body - 1) }) :=
    h.runs.trans ((hr.append (ending i.body)).trans leaves)
  exact .head (elaborates hk m) (runs.append [.yields (job.program.tree.mode n) m.stack.size])

theorem Entered.escapes (hk : job.program.tree.kind n = .loop id) {m₁ : Machine} {s : Signal}
    (h : Entered job (job.program.tree.loopParts id) m i m₁)
    (he : Escapes job ([.iterate i], m₁) s m') :
    Escapes job ([.elaborate n], m) s { m' with frames := m'.frames.truncate (i.body - 1) } := by
  have passes : unwind job s (ending i.body ++ [.yields (job.program.tree.mode n) m.stack.size]) m' =
      .escaped s { m' with frames := m'.frames.truncate (i.body - 1) } := by
    rw [← truncate_truncate m'.frames (Nat.sub_le i.body 1)]
    cases s <;> rfl
  have runs := h.runs.append [.yields (job.program.tree.mode n) m.stack.size]
  exact .of_does (elaborates hk m) (.of_runs runs (he.append passes))

end LoopParts

end Algol68
