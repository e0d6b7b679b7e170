import Algol68.Proofs.Annotation.Truthful
import Algol68.Proofs.Machine.Rote

/-! What each task teaches the machine about the nodes of the program. A serial clause without labels and
a case clause teach their chain when it is not known yet, and the end of a first evaluation teaches a
strategy. All other tasks are done by rote. -/

namespace Algol68

open Agenda

/-- Whether a node is a serial clause. -/
def NodeKind.isSerial : NodeKind → Bool
  | .serialClause .. => true
  | _ => false

/-- What is known once the chain of a clause was looked for. -/
def Annotations.charted (p : Program) (a : Annotations) (n : NodeId) : Annotations :=
  match a.chain n, p.chainOf n with
  | none, some c => ((a.beginLinearizing n).2.finishLinearizing n c
      { Flags.none with labelFree := (p.tree.kind n).isSerial }).2
  | _, _ => a

namespace Annotations

variable {p : Program} {a : Annotations} {n : NodeId} {c : List ChainStep}

theorem charted_of_known (h : a.chain n = some c) : a.charted p n = a := by
  simp [charted, h]

theorem charted_of_chainless (h : p.chainOf n = none) : a.charted p n = a := by
  unfold charted
  split
  · simp_all
  · rfl

theorem charted_of_new (h : a.chain n = none) (hc : p.chainOf n = some c) :
    a.charted p n = ((a.beginLinearizing n).2.finishLinearizing n c
      { Flags.none with labelFree := (p.tree.kind n).isSerial }).2 := by
  simp [charted, h, hc]

end Annotations

/-- Whether doing a task finds the chain of a serial clause. -/
def Task.finds (p : Program) (t : Task) (a : Annotations) : Bool :=
  match t with
  | .clause n _ => (p.tree.kind n).isSerial && (p.chainOf n).isSome && (a.chain n).isNone
  | _ => false

/-- What a task makes of what is known. -/
def Task.lesson (job : Job) (t : Task) (a : Annotations) : Annotations :=
  match t with
  | .settle n => a.memoize n (Exec.strategyOf job a n)
  | .clause n _ => if (job.program.tree.kind n).isSerial then a.charted job.program n else a
  | .elaborate n => if (job.program.tree.kind n).isCase then a.charted job.program n else a
  | _ => a

theorem Task.lesson_cases (job : Job) (t : Task) (a : Annotations) :
    (∃ n, t = .settle n) ∨ (∃ n, t.lesson job a = a.charted job.program n) ∨ t.lesson job a = a := by
  cases t with
  | settle n => exact .inl ⟨n, rfl⟩
  | clause n enquiry =>
    simp only [lesson]
    split
    · exact .inr (.inl ⟨n, rfl⟩)
    · exact .inr (.inr rfl)
  | elaborate n =>
    simp only [lesson]
    split
    · exact .inr (.inl ⟨n, rfl⟩)
    · exact .inr (.inr rfl)
  | _ => exact .inr (.inr rfl)

/-- What the machine has learnt after a task. -/
structure Task.Teaches (job : Job) (t : Task) (m m' : Machine) : Prop where
  annotations : m'.annotations = t.lesson job m.annotations
  counted : m'.counters.map Counters.linearizations =
    m.counters.map fun c => c.linearizations + (t.finds job.program m.annotations).toNat

theorem Task.Teaches.of_learnt {job : Job} {t : Task} {m m₁ m' : Machine}
    (h : t.Teaches job m m₁) (he : m'.learnt = m₁.learnt) : t.Teaches job m m' := by
  obtain ⟨ha, hc⟩ := Prod.ext_iff.mp he
  exact ⟨ha.trans h.1, hc.trans h.2⟩

theorem NodeKind.isSerial_of_isCase {kind : NodeKind} (h : kind.isCase) : kind.isSerial = false := by
  cases kind with
  | serialClause => cases h
  | _ => rfl

namespace Exec

variable {job : Job} {m : Machine}

theorem teaches_of_learnt {t : Task} {m' : Machine} (hl : t.lesson job m.annotations = m.annotations)
    (hf : t.finds job.program m.annotations = false) (h : m'.learnt = m.learnt) :
    t.Teaches job m m' := by
  obtain ⟨ha, hc⟩ := Prod.ext_iff.mp h
  refine ⟨ha.trans hl.symm, hc.trans ?_⟩
  rw [hf]
  rfl

theorem dull_lesson {t : Task} (h : t.learns job.program = false) (a : Annotations) :
    t.lesson job a = a ∧ t.finds job.program a = false := by
  cases t with
  | unit | settle | clause => cases h
  | elaborate n =>
    refine ⟨?_, rfl⟩
    have hn : (job.program.tree.kind n).isCase = false := h
    simp [Task.lesson, hn]
  | _ => exact ⟨rfl, rfl⟩

theorem unit_teaches (n : NodeId) : wp (Exec.unit n)
    (fun work m' => (Task.unit n).Teaches job m m' ∧ ∃ t e, work = [t, e] ∧ t.ends = none ∧
      e.ends = some n) (fun _ _ => False) m := by
  have taught (f : Counters → Counters) (hf : ∀ c, (f c).linearizations = c.linearizations) :
      (Task.unit n).Teaches job m { m with counters := m.counters.map f } := by
    refine teaches_of_learnt rfl rfl ?_
    have same : Counters.linearizations ∘ f = Counters.linearizations := funext hf
    simp only [Machine.learnt, Option.map_map, same]
  simp only [Exec.unit, wp_bind, wp_count, wp_get]
  split
  · exact ⟨taught _ fun _ => rfl, _, _, rfl, rfl, rfl⟩
  · refine ⟨taught _ fun _ => rfl, _, _, rfl, ?_, rfl⟩
    split <;> rfl
  · exact ⟨taught _ fun _ => rfl, _, _, rfl, rfl, rfl⟩

theorem linearChain_teaches {n : NodeId} {scope : ScopeId} {items : NodeRange}
    (hk : job.program.tree.kind n = .serialClause scope items)
    (hl : (job.program.scopes.get scope).hasLabels = false) (enquiry : Bool) :
    wp (linearChain job n (job.program.tree.list items))
      (fun _ m' => (Task.clause n enquiry).Teaches job m m') (fun _ _ => False) m := by
  have chain : job.program.chainOf n =
      some (job.program.tree.flatten (job.program.tree.list items)) := by
    simp [Program.chainOf, hk, hl]
  simp only [linearChain, wp_bind, wp_get]
  split
  · next c hc =>
    refine teaches_of_learnt ?_ ?_ ?_
    · simp [Task.lesson, Annotations.charted_of_known hc]
    · simp [Task.finds, hc]
    · simp only [Machine.learnt, Option.map_map]
      rfl
  · next hc =>
    simp only [wp_bind, wp_annotate, wp_count, wp_pure]
    constructor
    · simp [Task.lesson, Annotations.charted_of_new hc chain, NodeKind.isSerial, hk]
    · simp only [Task.finds, hk, NodeKind.isSerial, chain, hc, Option.map_map]
      rfl

theorem alternatives_teaches {n : NodeId} {items : NodeRange}
    (hchain : job.program.chainOf n =
      some ((ChainStep.units (job.program.tree.flatten (job.program.tree.list items))).map .unit))
    (hk : (job.program.tree.kind n).isCase) :
    wp (alternatives job n (job.program.tree.list items))
      (fun _ m' => (Task.elaborate n).Teaches job m m') (fun _ _ => False) m := by
  have serial := NodeKind.isSerial_of_isCase hk
  simp only [alternatives, wp_bind, wp_get]
  split
  · next c hc =>
    refine teaches_of_learnt ?_ rfl rfl
    simp [Task.lesson, Annotations.charted_of_known hc]
  · next hc =>
    simp only [wp_bind, wp_annotate, wp_pure]
    refine ⟨?_, rfl⟩
    simp [Task.lesson, Annotations.charted_of_new hc hchain, hk, serial, Flags.none]

theorem announce_rote (serial : NodeId) (items : List NodeId) (baseline : Nat) :
    Rote (fun _ => True) (announce serial items baseline) := by
  refine Rote.get.andThen fun m => (Rote.lift m.frames.top_unplaced).andThen fun i => ?_
  refine (Rote.lift (m.frames.handle_unplaced i)).andThen fun h => ?_
  exact Rote.andThen (Rote.modify fun _ => rfl) fun _ => .pure trivial

theorem clause_teaches (n : NodeId) (enquiry : Bool) : wp (clause job n enquiry)
    (fun work m' => (Task.clause n enquiry).Teaches job m m' ∧ work.active = [])
    (fun s m' => s.Fresh ∧ (Task.clause n enquiry).Teaches job m m') m := by
  simp only [clause]
  split
  · next scope items hk =>
    have ending (baseline : Nat) : active (if !enquiry && job.program.tree.mode n = .void then
        [Task.cut baseline] else []) = [] := by
      split <;> rfl
    simp only [wp_bind, wp_depth, wp_ite]
    refine ⟨fun hl => ?_, fun hl => ?_⟩
    · have labelled : job.program.chainOf n = none := by simp [Program.chainOf, hk, hl]
      have same {m' : Machine} (h : m'.learnt = m.learnt) :
          (Task.clause n enquiry).Teaches job m m' := by
        refine teaches_of_learnt ?_ ?_ h
        · simp only [Task.lesson, Annotations.charted_of_chainless labelled, ite_self]
        · simp [Task.finds, labelled]
      refine wp_mono (announce_rote n _ _ m) (fun c m' h => ⟨same h.2, ?_⟩)
        fun s m' h => ⟨h.1, same h.2⟩
      rw [active_append, active_steps, active_cons_of_none (by rfl), ending]
      rfl
    · refine wp_mono (linearChain_teaches hk (by simpa using hl) enquiry)
        (fun c m' h => ⟨h, ?_⟩) fun _ _ h => h.elim
      rw [active_append, active_steps, ending]
      rfl
  · next hk =>
    refine ⟨teaches_of_learnt ?_ ?_ rfl, rfl⟩
    all_goals
      have serial : (job.program.tree.kind n).isSerial = false := by
        cases h : job.program.tree.kind n with
        | serialClause scope items => exact absurd h (hk scope items)
        | _ => rfl
      simp [Task.lesson, Task.finds, serial]

theorem cases_teaches {n : NodeId} (items : NodeRange)
    (hchain : job.program.chainOf n =
      some ((ChainStep.units (job.program.tree.flatten (job.program.tree.list items))).map .unit))
    (hk : (job.program.tree.kind n).isCase) (scope : ScopeId) (work : List NodeId → Agenda)
    (hw : ∀ units, (work units).active = []) (mode : ModeId) (baseline : Nat) :
    wp (do
        let units ← alternatives job n (job.program.tree.list items)
        return (← enclosed job scope (work units)) ++ [.yields mode baseline])
      (fun work m' => (Task.elaborate n).Teaches job m m' ∧ work.active = [])
      (fun s m' => s.Fresh ∧ (Task.elaborate n).Teaches job m m') m := by
  rw [wp_bind]
  refine wp_mono (alternatives_teaches hchain hk) (fun units m₁ h => ?_) fun _ _ h => h.elim
  exact wp_mono (enclosed_dull scope (hw units) mode baseline m₁)
    (fun _ m' h' => ⟨h.of_learnt h'.2, h'.1⟩) fun _ m' h' => ⟨h'.1, h.of_learnt h'.2⟩

/-- What each task teaches; evaluations that a task leaves to be ended are those it begins, and its
faults have no position. -/
theorem exec_teaches (t : Task) : wp (t.exec job)
    (fun work m' => t.Teaches job m m' ∧ ((∀ n, t ≠ .unit n) → work.active = []))
    (fun s m' => s.Fresh ∧ t.Teaches job m m') m := by
  cases hl : t.learns job.program with
  | false =>
    have taught {m' : Machine} (h : m'.learnt = m.learnt) : t.Teaches job m m' :=
      teaches_of_learnt (dull_lesson hl _).1 (dull_lesson hl _).2 h
    exact wp_mono (exec_dull hl m) (fun _ _ h => ⟨taught h.2, fun _ => h.1⟩)
      fun _ _ h => ⟨h.1, taught h.2⟩
  | true =>
    cases t with
    | unit n =>
      exact wp_mono (unit_teaches n) (fun _ _ h => ⟨h.1, fun hn => absurd rfl (hn n)⟩)
        fun _ _ h => h.elim
    | settle n => exact ⟨⟨rfl, rfl⟩, fun _ => rfl⟩
    | clause n enquiry =>
      exact wp_mono (clause_teaches n enquiry) (fun _ _ h => ⟨h.1, fun _ => h.2⟩) fun _ _ h => h
    | elaborate n =>
      have left {x : Exec Agenda} (h : wp x
          (fun work m' => (Task.elaborate n).Teaches job m m' ∧ work.active = [])
          (fun s m' => s.Fresh ∧ (Task.elaborate n).Teaches job m m') m) :
          wp x (fun work m' => (Task.elaborate n).Teaches job m m' ∧
            ((∀ k, Task.elaborate n ≠ .unit k) → work.active = []))
          (fun s m' => s.Fresh ∧ (Task.elaborate n).Teaches job m m') m :=
        wp_mono h (fun _ _ h => ⟨h.1, fun _ => h.2⟩) fun _ _ h => h
      have hn : (job.program.tree.kind n).isCase = true := hl
      simp only [Task.exec, elaborate]
      cases hk : job.program.tree.kind n with
      | integerCase scope _ items | conformityCase scope _ items =>
        rw [wp_bind, wp_depth]
        exact left (cases_teaches items (by simp [Program.chainOf, hk]) hn scope _ (fun _ => rfl) _ _)
      | _ =>
        rw [hk] at hn
        cases hn
    | _ => cases hl

end Exec

end Algol68
