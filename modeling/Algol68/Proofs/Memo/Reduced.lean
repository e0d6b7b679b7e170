import Algol68.Proofs.Memo.Step
import Algol68.Proofs.Run.Segment

/-! Closed clauses that are evaluated by their only unit. Before a strategy is recorded for a node,
it was evaluated in full; so the value of a closed clause that is reduced to its unit is one that
the clause would have yielded as well. -/

namespace Algol68

variable {job : Job} {units : NodeId → Prop} {A rest : Agenda} {m m' : Machine} {n unit : NodeId}

/-! The first evaluation of a node. -/

/-- A first evaluation of `n` was begun in a session and came to its end. -/
def FirstEvaluated (job : Job) (units : NodeId → Prop) (n : NodeId) : Prop :=
  ∃ rest m m', Underway job units (.elaborate n :: .settle n :: rest) m ∧
    Runs job ([.elaborate n, .settle n], m) ([.settle n], m')

namespace Session

theorem Begins.firstEvaluated {s : Session} (hb : s.Begins job units unit)
    (hstart : ∀ n, (s.machine.annotations.strategy n).isSome → FirstEvaluated job units n)
    {y : Agenda × Machine} (hr : Runs job ([.unit unit], s.machine) y)
    (hn : (y.2.annotations.strategy n).isSome) : FirstEvaluated job units n := by
  induction hr with
  | refl => exact hstart n hn
  | @tail y z hr hs ih =>
    obtain ⟨Y, my⟩ := y
    obtain ⟨t, rest, rfl, taught⟩ := hs.teaches
    obtain ⟨strategy, hn⟩ := Option.isSome_iff_exists.mp hn
    rw [taught.annotations] at hn
    rcases (hb.informed.runs hr).faithful.strategy_lesson hn with hold | rfl
    · exact ih (by rw [hold]; rfl)
    · obtain ⟨m₀, ⟨Z, m₁⟩, hbegin, hz, hrun⟩ := Runs.evaluated_of_head hr rfl
      rcases hz.unit_cases with ⟨rfl, -⟩ | ⟨u, rfl, -⟩
      · exact ⟨rest, m₁, my, .step (hb.underway.runs hbegin) (hz.append rest), hrun⟩
      · -- a repeated evaluation does not end in a strategy
        rcases Runs.end_stays (n := n) [u] rfl hrun with hnil | ⟨inner, hinner⟩
        · cases hnil
        · have hinner : [] ++ [Task.settle n] = inner ++ [.within n] := hinner
          obtain ⟨-, heq⟩ := List.append_inj' hinner rfl
          cases heq

theorem Begins.firstEvaluated_of_ended {s : Session} (hb : s.Begins job units unit)
    (hstart : ∀ n, (s.machine.annotations.strategy n).isSome → FirstEvaluated job units n)
    {steps : Nat} (he : (s.runUnit steps unit).1.ended)
    (hn : ((s.runUnit steps unit).2.machine.annotations.strategy n).isSome) :
    FirstEvaluated job units n := by
  obtain rfl := hb.job_eq
  obtain ⟨m, hm, hl⟩ := runUnit_leaves he
  have same : (s.runUnit steps unit).2.machine.annotations = m.annotations :=
    congrArg Prod.fst hl.learnt
  rw [same] at hn
  rcases hm with hr | ⟨signal, hesc⟩
  · exact hb.firstEvaluated hstart hr hn
  · obtain ⟨t, rest, m₀, hr, hgoes, taught⟩ := Escapes.teaches hesc
    obtain ⟨strategy, hn⟩ := Option.isSome_iff_exists.mp hn
    rw [taught.annotations] at hn
    rcases (hb.informed.runs hr).faithful.strategy_lesson hn with hold | rfl
    · exact hb.firstEvaluated hstart hr (by rw [hold]; rfl)
    · cases hgoes

theorem Reached.firstEvaluated {s : Session} (h : Reached job units s)
    (hn : (s.machine.annotations.strategy n).isSome) : FirstEvaluated job units n := by
  induction h generalizing n with
  | new source keepsText =>
    simp [Session.new, Machine.new, Annotations.strategy, Annotations.entry_new,
      Annotation.blank] at hn
  | @run s h steps he ih =>
    have same : s.job = job := h.job_eq
    subst same
    exact Begins.firstEvaluated_of_ended (.run h) (fun n hn => ih hn) he hn
  | resume h steps unit hu he ih =>
    exact Begins.firstEvaluated_of_ended (.resume h hu) (fun n hn => ih hn) he hn
  | clear h ih => exact ih hn

end Session

theorem Underway.firstEvaluated (h : Underway job units A m)
    (hn : (m.annotations.strategy n).isSome) : FirstEvaluated job units n := by
  obtain ⟨s, unit, hb, hr⟩ := h.exists_begins
  refine hb.firstEvaluated (fun k hk => ?_) hr hn
  cases hb with
  | run h | resume h => exact h.firstEvaluated hk

/-! Closed clauses around one unit. -/

section

variable {scope range : ScopeId} {serial inner : NodeId} {items : NodeRange}
  (hk : job.program.tree.kind n = .closed scope serial)
  (hs : job.program.tree.kind serial = .serialClause range items)
  (hl : (job.program.scopes.get range).hasLabels = false)
  (hc : job.program.tree.flatten (job.program.tree.list items) = [.unit inner])
  (hlimit : job.config.frameLimit = none)

include hk hs hl hc hlimit

/-- The clause comes to its unit in a frame of its own. -/
theorem Runs.closed (ht : m.annotations.Truthful job) (hpos : 0 < m.frames.depth) (rest : Agenda) :
    ∃ t k, Runs job (.elaborate n :: rest, m)
      (.unit inner :: ((if job.program.tree.mode serial = .void then [.cut m.stack.size] else []) ++
        .leave m.frames.depth :: .yields (job.program.tree.mode n) m.stack.size :: rest),
      { m with
        frames := m.frames.push scope (job.program.scopes.get scope).level
          (some (m.frames.depth - 1)) (job.program.freshLocals scope)
        annotations := t
        counters := k }) := by
  have top : m.frames.top = .ok (m.frames.depth - 1) := by
    have : m.frames.frames.isEmpty = false := by
      simpa [FrameStack.depth, Array.size_pos_iff] using hpos
    simp [FrameStack.top, this, FrameStack.depth]
  have opened : (Task.elaborate n).exec job m = .ok
      [.clause serial false, .leave m.frames.depth,
        .yields (job.program.tree.mode n) m.stack.size] { m with
      frames := m.frames.push scope (job.program.scopes.get scope).level
        (some (m.frames.depth - 1)) (job.program.freshLocals scope) } := by
    refine Exec.eq_ok_of_wp ?_
    simp [Task.exec, Exec.elaborate, hk, Exec.enclosed, Exec.enter, top, FrameStack.checkRoom,
      hlimit]
  have begun (m₁ : Machine) (ht : m₁.annotations.Truthful job) : ∃ t k,
      (Task.clause serial false).exec job m₁ = .ok
        (.unit inner :: (if job.program.tree.mode serial = .void then [.cut m₁.stack.size] else []))
        { m₁ with annotations := t, counters := k } := by
    have chain := Exec.linearChain_learns ht hs (by simpa using hl)
    obtain ⟨_, _, hx, rfl, t, k, rfl⟩ := Exec.exists_of_wp chain
    refine ⟨t, k, ?_⟩
    simp only [Task.exec, Exec.clause, hs]
    refine Exec.eq_ok_of_wp ?_
    rw [Exec.wp_bind, Exec.wp_depth, Exec.wp_ite]
    refine ⟨fun h => absurd h (by simp [hl]), fun _ => ?_⟩
    rw [Exec.wp_bind, Exec.wp, hx]
    simp [hc, ChainStep.task]
  obtain ⟨t, k, begun⟩ := begun { m with
    frames := m.frames.push scope (job.program.scopes.get scope).level
      (some (m.frames.depth - 1)) (job.program.freshLocals scope) } ht
  refine ⟨t, k, .head (.done opened) (.single ?_)⟩
  have := @Does.done _ _ _ (.leave m.frames.depth ::
    .yields (job.program.tree.mode n) m.stack.size :: rest) _ _ begun
  simpa using this

/-- A clause that drops what its unit leaves, and was evaluated in full, yields nothing. -/
theorem FirstEvaluated.void (h : FirstEvaluated job units n)
    (hv : job.program.tree.mode serial = .void) : job.program.tree.mode n = .void := by
  obtain ⟨rest, m, m', hu, hr⟩ := h
  have consistent := hu.consistent.1
  obtain ⟨t, k, hbegin⟩ := Runs.closed hk hs hl hc hlimit consistent.truthful
    consistent.sound.depth_pos [.settle n]
  have settled : (Task.settle n).exec job m' = .ok [] _ := rfl
  have hrun := (Final.of_empty _).runs hbegin (hr.tail (.done settled))
  rw [if_pos hv] at hrun
  -- the unit is done, and then what it left is dropped and the frame closed
  rcases Runs.cut (A := [.unit inner]) (fun c hc => by simp at hc) hrun with
    ⟨X, hX, -⟩ | ⟨m₂, -, hrun⟩
  · simp at hX
  · have cut : (Task.cut m.stack.size).exec job m₂ = .ok [] _ := rfl
    have leave : (Task.leave m.frames.depth).exec job
        { m₂ with stack := m₂.stack.shrink m.stack.size } = .ok [] _ := rfl
    have last := (Final.of_empty _).runs (.head (.done cut) (.single (.done leave))) hrun
    rcases Relation.ReflTransGen.cases_head last with heq | ⟨_, hd, -⟩
    · cases heq
    · obtain ⟨_, _, he, -⟩ := hd.done_of_notMem (by simp)
      by_contra hm
      have fails : Exec.wp ((Task.yields (job.program.tree.mode n) m.stack.size).exec job)
          (fun _ _ => False) (fun _ _ => True)
          { m₂ with
            stack := m₂.stack.shrink m.stack.size
            frames := m₂.frames.truncate m.frames.depth } := by
        simp [Task.exec, Exec.yields, hm]
        omega
      exact Exec.wp_ok fails he

end

/-- Where a node is evaluated by another one, it is a closed clause around that one, which yields
what the clause would. -/
theorem Underway.reduced (hlimit : job.config.frameLimit = none) (h : Underway job units A m)
    {s : Strategy} (hn : m.annotations.strategy n = some s) (hne : s.source ≠ n) :
    s.kind = .unit ∧ job.program.tree.mode s.source = job.program.tree.mode n ∧
      ∃ scope serial range items, job.program.tree.kind n = .closed scope serial ∧
        job.program.tree.kind serial = .serialClause range items ∧
        (job.program.scopes.get range).hasLabels = false ∧
        job.program.tree.flatten (job.program.tree.list items) = [.unit s.source] ∧
        (job.program.tree.mode serial = .void → job.program.tree.mode n = .void) := by
  rcases h.consistent.1.truthful.strategy n s hn with heq | ⟨hkind, hr⟩
  · exact absurd heq hne
  · obtain ⟨scope, serial, range, items, hk, -, hs, hl, hc⟩ := hr.clause
    have first := h.firstEvaluated (n := n) (by rw [hn]; rfl)
    exact ⟨hkind, hr.mode, scope, serial, range, items, hk, hs, hl, hc,
      first.void hk hs hl hc hlimit⟩

end Algol68
