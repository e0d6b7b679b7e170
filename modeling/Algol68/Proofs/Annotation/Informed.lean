import Algol68.Proofs.Annotation.Table
import Algol68.Proofs.Run.Activity

/-! The table of annotations along a run. A first evaluation looks for the chain that its strategy depends
on before it ends, so whichever evaluation of a node ends first, a strategy that is recorded is the one
that every later end would record. -/

namespace Algol68

variable {job : Job} {A A' rest : Agenda} {m m' : Machine} {n unit : NodeId}

/-! What steps and signals do to the table. -/

theorem Machine.undo_learnt (m : Machine) (A : Agenda) : (m.undo A).learnt = m.learnt := by
  induction A generalizing m with
  | nil => rfl
  | cons t A ih =>
    rw [Machine.undo_cons, ih]
    cases t <;> rfl

theorem LabelledClause.caught_learnt (c : LabelledClause) (j : Jump) (m : Machine) :
    (c.caught j m).learnt = m.learnt := by
  simp only [Machine.learnt, caught, Option.map_map]
  rfl

theorem Does.teaches {x y : Agenda × Machine} (h : Does job x y) :
    ∃ t rest, x.1 = t :: rest ∧ t.Teaches job x.2 y.2 := by
  cases h with
  | done he => exact ⟨_, _, rfl, (Exec.wp_ok (Exec.exec_teaches _) he).1⟩
  | @resumed t rest _ _ m₁ _ s he hu =>
    obtain ⟨j, before, c, after, work, rfl, rfl, -, -, -, rfl, rfl⟩ := unwind_resumed hu
    have taught := (Exec.wp_error (Exec.exec_teaches _) he).2
    refine ⟨t, _, rfl, taught.of_learnt ?_⟩
    rw [LabelledClause.caught_learnt, Machine.undo_learnt]

/-- The last task of a run that ends in a signal is not the end of an evaluation. -/
theorem Escapes.teaches {x : Agenda × Machine} {s : Signal} (h : Escapes job x s m') :
    ∃ t rest m, Runs job x (t :: rest, m) ∧ t.ends = none ∧ t.Teaches job m m' := by
  obtain ⟨t, rest, m, m₁, s₀, hr, he, hu⟩ := h
  have goesOn : t.ends = none := by
    cases ht : t.ends with
    | none => rfl
    | some n =>
      obtain ⟨m₂, hok⟩ := Task.exec_of_ends job ht m
      cases hok.symm.trans he
  have taught := (Exec.wp_error (Exec.exec_teaches _) he).2
  refine ⟨t, rest, m, hr, goesOn, taught.of_learnt ?_⟩
  rcases unwind_escaped hu with rfl | ⟨j, before, c, after, rfl, rfl, -, -, rfl⟩
  · exact Machine.undo_learnt m₁ rest
  · rw [Machine.undo_learnt, LabelledClause.caught_learnt, Machine.undo_learnt]

theorem Task.Teaches.extends {t : Task} (h : t.Teaches job m m') :
    m.annotations.Extends m'.annotations := by
  rw [h.annotations]
  exact .lesson t m.annotations

theorem Runs.extends {x y : Agenda × Machine} (h : Runs job x y) :
    x.2.annotations.Extends y.2.annotations := by
  induction h with
  | refl => exact .refl _
  | @tail y z _ hs ih =>
    obtain ⟨t, rest, -, ht⟩ := hs.teaches
    exact ih.trans ht.extends

theorem Ends.extends {x : Agenda × Machine} (h : Ends job x m) :
    x.2.annotations.Extends m.annotations := by
  rcases h with hr | ⟨s, hs⟩
  · exact Runs.extends hr
  · obtain ⟨t, rest, m₀, hr, -, taught⟩ := Escapes.teaches hs
    exact (Runs.extends hr).trans taught.extends

/-! The first evaluation of a node. -/

theorem Does.unit_cases {z : Agenda × Machine} (h : Does job ([.unit n], m) z) :
    (z.1 = [.elaborate n, .settle n] ∧ m.annotations.strategy n = none) ∨
      ∃ u, z.1 = [u, .within n] ∧ (m.annotations.strategy n).isSome := by
  have work : Exec.wp (Exec.unit n)
      (fun work _ => (work = [.elaborate n, .settle n] ∧ m.annotations.strategy n = none) ∨
        ∃ u, work = [u, .within n] ∧ (m.annotations.strategy n).isSome) (fun _ _ => False) m := by
    simp only [Exec.unit, Exec.wp_bind, Exec.wp_count, Exec.wp_get]
    split
    · next hn => exact .inl ⟨rfl, hn⟩
    · next hs => exact .inr ⟨_, rfl, by rw [hs]; rfl⟩
    · next hs => exact .inr ⟨_, rfl, by rw [hs]; rfl⟩
  cases h with
  | done he => simpa using Exec.wp_ok work he
  | resumed he hu => exact (Exec.wp_error work he).elim

/-- Where no clause is running, a step is made by a task that ends well. -/
theorem Does.done_of_notMem {t : Task} {z : Agenda × Machine} (h : Does job (t :: rest, m) z)
    (hn : ∀ c, .labelled c ∉ rest) :
    ∃ work m', t.exec job m = .ok work m' ∧ z = (work ++ rest, m') := by
  cases h with
  | done he => exact ⟨_, _, he, rfl⟩
  | resumed he hu =>
    obtain ⟨j, before, c, after, work, -, rfl, -⟩ := unwind_resumed hu
    exact absurd (by simp) (hn c)

theorem Exec.elaborate_closed {scope : ScopeId} {serial : NodeId}
    (hk : job.program.tree.kind n = .closed scope serial) :
    wp (elaborate job n) (fun work _ => ∃ depth mode baseline,
      work = [.clause serial false, .leave depth, .yields mode baseline]) (fun _ _ => True) m := by
  simp only [elaborate, hk, enclosed, wp_bind, wp_depth]
  exact wp_mono (Rote.enter job scope m) (fun before m' _ => ⟨_, _, _, rfl⟩) fun _ _ _ => trivial

theorem Exec.elaborate_beyond (hk : job.program.tree.kind n = .punct) :
    wp (elaborate job n) (fun _ _ => False) (fun _ _ => True) m := by
  simp [elaborate, hk]

/-- When the first evaluation of a node ends, all that its strategy depends on is known. -/
theorem Runs.shown {z : Agenda × Machine} (hz : Does job ([.unit n], m) z)
    (hr : Runs job z ([.settle n], m')) (hc : m'.annotations.Charts job.program) :
    m'.annotations.Shown job.program n := by
  obtain ⟨Z, m₁⟩ := z
  rcases hz.unit_cases with ⟨rfl, -⟩ | ⟨u, rfl, -⟩
  · rcases Relation.ReflTransGen.cases_head hr with heq | ⟨w, hw, hr⟩
    · cases heq
    · obtain ⟨work, m₂, he, rfl⟩ := hw.done_of_notMem (by simp)
      refine ⟨Tree.index_lt_of_kind fun hk => ?_, fun scope serial hk hserial => ?_⟩
      · exact (Exec.wp_ok (Exec.elaborate_beyond hk) he).elim
      · -- the clause is begun right after the frame of the closed clause is opened
        obtain ⟨depth, mode, baseline, rfl⟩ := Exec.wp_ok (Exec.elaborate_closed hk) he
        rcases Relation.ReflTransGen.cases_head hr with heq | ⟨w, hw, hr⟩
        · cases heq
        · obtain ⟨work, m₃, he, rfl⟩ := hw.done_of_notMem (by simp)
          have taught := (Exec.wp_ok (Exec.clause_teaches serial false) he).1
          have kept := Runs.extends hr
          cases hchain : job.program.chainOf serial with
          | none =>
            cases hknown : m'.annotations.chain serial with
            | none => rfl
            | some c => cases hchain.symm.trans (hc.chain serial c hknown)
          | some c =>
            have size : serial.index < m₂.annotations.size := by
              rw [← taught.extends.size, ← kept.size, hc.size]
              exact Annotations.Charts.node_of_chainOf hchain
            have known := Annotations.chain_charted size (p := job.program) (by rw [hchain]; rfl)
            obtain ⟨d, hd⟩ := Option.isSome_iff_exists.mp known
            have hlesson : m₃.annotations = m₂.annotations.charted job.program serial := by
              rw [taught.annotations, Task.lesson, if_pos hserial]
            have hd' := kept.chain serial d (by rw [hlesson, hd])
            rw [hd', ← hchain]
            exact (hc.chain serial d hd').symm
  · have ends : (Task.within n).ends = some n := rfl
    rcases Runs.end_stays [u] ends hr with hnil | ⟨inner, hinner⟩
    · cases hnil
    · have hinner : [] ++ [Task.settle n] = inner ++ [.within n] := hinner
      obtain ⟨-, heq⟩ := List.append_inj' hinner rfl
      cases heq

theorem Runs.shown_of_head (hr : Runs job ([.unit unit], m) (.settle n :: rest, m'))
    (hc : m'.annotations.Charts job.program) : m'.annotations.Shown job.program n := by
  obtain ⟨m₀, z, -, hz, hrun⟩ := Runs.evaluated_of_head hr rfl
  exact Runs.shown hz hrun hc

/-! What the machine knows is true in every state. -/

/-- What is recorded is what there is to record, and the chains of serial clauses that were found are
those that are recorded. -/
structure Machine.Informed (job : Job) (m : Machine) : Prop where
  faithful : m.annotations.Faithful job
  counted : ∀ k, m.counters = some k → k.linearizations = m.annotations.labelFree.card

namespace Machine.Informed

theorem new (keepsText : Bool) : (Machine.new job keepsText).Informed job := by
  refine ⟨.new, fun k hk => ?_⟩
  simp only [Machine.new] at hk
  split at hk <;> cases hk
  rw [Machine.new, Annotations.labelFree_new]
  rfl

theorem of_learnt (h : m.Informed job) (he : m'.learnt = m.learnt) : m'.Informed job := by
  obtain ⟨ha, hc⟩ := Prod.ext_iff.mp he
  have ha : m'.annotations = m.annotations := ha
  have hc : m'.counters.map Counters.linearizations = m.counters.map Counters.linearizations := hc
  refine ⟨by rw [ha]; exact h.faithful, fun k hk => ?_⟩
  rw [hk, Option.map_some] at hc
  obtain ⟨k', hk', heq⟩ := Option.map_eq_some_iff.mp hc.symm
  rw [ha, ← h.counted k' hk', heq]

theorem teaches (h : m.Informed job) {t : Task} (ht : t.Teaches job m m')
    (hs : ∀ n, t = .settle n → m.annotations.Shown job.program n) : m'.Informed job := by
  refine ⟨?_, fun k hk => ?_⟩
  · rw [ht.annotations]
    exact h.faithful.lesson t hs
  · have hc := ht.counted
    rw [hk, Option.map_some] at hc
    obtain ⟨k', hk', heq⟩ := Option.map_eq_some_iff.mp hc.symm
    rw [← heq, ht.annotations, h.faithful.card_labelFree_lesson t, h.counted k' hk']

theorem runs (h : m.Informed job) {y : Agenda × Machine} (hr : Runs job ([.unit unit], m) y) :
    y.2.Informed job := by
  induction hr with
  | refl => exact h
  | @tail y z hr hs ih =>
    obtain ⟨Y, my⟩ := y
    obtain ⟨t, rest, rfl, taught⟩ := hs.teaches
    refine ih.teaches taught fun n hn => ?_
    subst hn
    exact Runs.shown_of_head hr ih.faithful.toCharts

theorem ends (h : m.Informed job) (he : Ends job ([.unit unit], m) m') : m'.Informed job := by
  rcases he with hr | ⟨s, hs⟩
  · exact h.runs hr
  · obtain ⟨t, rest, m₀, hr, hgoes, taught⟩ := Escapes.teaches hs
    refine (h.runs hr).teaches taught fun n hn => ?_
    subst hn
    cases hgoes

end Machine.Informed

end Algol68
