import Algol68.Proofs.Annotation.Informed
import Algol68.Proofs.Frames.Lifo

/-! The table of annotations along a session. It is only added to, in whatever way evaluations and actions
end, and it tells which nodes have been evaluated to the end. -/

namespace Algol68

variable {job : Job} {units : NodeId → Prop} {A : Agenda} {m m' : Machine} {n unit : NodeId}

/-! Sessions. -/

namespace Session

theorem Leaves.learnt {s : Session} (h : s.Leaves m m') : m'.learnt = m.learnt := by
  cases h <;> rfl

theorem Rests.learnt {s s' : Session} (h : s.Rests s') : s'.machine.learnt = s.machine.learnt := by
  induction h with
  | refl => rfl
  | clear _ ih => exact ih
  | atRest _ ih => exact ih

theorem runUnit_informed {s : Session} (h : s.machine.Informed s.job) {steps : Nat}
    (he : (s.runUnit steps unit).1.ended) : (s.runUnit steps unit).2.machine.Informed s.job := by
  obtain ⟨m, hm, hl⟩ := runUnit_leaves he
  exact (h.ends hm).of_learnt hl.learnt

theorem Reached.informed {s : Session} (h : Reached job units s) : s.machine.Informed job := by
  induction h with
  | new source keepsText => exact .new keepsText
  | run h steps he ih =>
    rw [← h.job_eq] at ih ⊢
    exact runUnit_informed ih he
  | @resume s h steps unit hu he ih =>
    have same : s.job = job := h.job_eq
    subst same
    exact @runUnit_informed unit s.atRest (ih.of_learnt rfl) steps he
  | clear h ih => exact ih.of_learnt rfl

theorem Begins.informed {s : Session} (h : s.Begins job units unit) : s.machine.Informed job := by
  cases h with
  | run h => exact h.informed
  | resume h hu => exact h.informed.of_learnt rfl

end Session

/-- Each state of a session is one of the run of an action. -/
theorem Underway.exists_begins (h : Underway job units A m) : ∃ s unit,
    Session.Begins job units s unit ∧ Runs job ([.unit unit], s.machine) (A, m) := by
  induction h with
  | @run s h => exact ⟨s, _, .run h, .refl⟩
  | @resume s h unit hu => exact ⟨s.atRest, unit, .resume h hu, .refl⟩
  | step h hs ih =>
    obtain ⟨s, unit, hb, hr⟩ := ih
    exact ⟨s, unit, hb, hr.tail hs⟩

theorem Underway.informed (h : Underway job units A m) : m.Informed job := by
  obtain ⟨s, unit, hb, hr⟩ := h.exists_begins
  exact hb.informed.runs hr

/-- Nothing that was recorded is ever changed. -/
theorem Later.extends {x y : Agenda × Machine} (h : Later job units x y) :
    x.2.annotations.Extends y.2.annotations := by
  induction h with
  | refl => exact .refl _
  | step h hs ih =>
    obtain ⟨t, rest, -, taught⟩ := hs.teaches
    exact ih.trans taught.extends
  | @next y s s' unit unit' steps h hb hr he hs hb' ih =>
    obtain rfl := hb.job_eq
    obtain ⟨m, hm, hl⟩ := Session.runUnit_leaves he
    have same : s'.machine.annotations = m.annotations :=
      congrArg Prod.fst (hs.learnt.trans hl.learnt)
    rw [same]
    exact ih.trans (hm.of_runs hr).extends

/-! Evaluations that were completed. -/

/-- An evaluation of `n` was completed no later than in the state `y`. -/
def Completed (job : Job) (units : NodeId → Prop) (n : NodeId) (y : Agenda × Machine) : Prop :=
  ∃ rest m₀ m₁, Underway job units (.unit n :: rest) m₀ ∧ Runs job ([.unit n], m₀) ([], m₁) ∧
    Later job units (rest, m₁) y

/-- An evaluation that is completed leaves a strategy for its node. -/
theorem Underway.strategy_of_completed {rest : Agenda} (h : Underway job units (.unit n :: rest) m)
    (hr : Runs job ([.unit n], m) ([], m')) : (m'.annotations.strategy n).isSome := by
  have informed {B : Agenda} {m₁ : Machine} (hB : Runs job ([.unit n], m) (B, m₁)) :
      m₁.Informed job := (h.runs (hB.append rest)).informed
  rcases Relation.ReflTransGen.cases_head hr with heq | ⟨⟨Z, mz⟩, hz, hrun⟩
  · cases heq
  · rcases hz.unit_cases with ⟨rfl, -⟩ | ⟨u, rfl, hs⟩
    · have ends : (Task.settle n).ends = some n := rfl
      obtain ⟨m₁, hlast, hdone⟩ := Runs.exists_last [.elaborate n] ends hrun
      have charts := (informed (.head hz hlast)).faithful.toCharts
      have shown := Runs.shown hz hlast charts
      obtain ⟨t, B, heq, taught⟩ := hdone.teaches
      obtain ⟨rfl, -⟩ := List.cons.inj heq
      rw [taught.annotations]
      refine Annotations.strategy_memoize ?_ _
      rw [charts.size]
      exact shown.node
    · obtain ⟨s, hs⟩ := Option.isSome_iff_exists.mp hs
      rw [(Runs.extends hr).strategy n s hs]
      rfl

/-- The strategies that are known in a run but were not at its start are those of nodes whose evaluation
was completed in the run. -/
theorem Session.Begins.completed {s : Session} (hb : s.Begins job units unit)
    (hstart : ∀ n, (s.machine.annotations.strategy n).isSome →
      Completed job units n ([.unit unit], s.machine)) {y : Agenda × Machine}
    (hr : Runs job ([.unit unit], s.machine) y) (hn : (y.2.annotations.strategy n).isSome) :
    Completed job units n y := by
  induction hr with
  | refl => exact hstart n hn
  | @tail y z hr hs ih =>
    obtain ⟨Y, my⟩ := y
    obtain ⟨t, rest, rfl, taught⟩ := hs.teaches
    obtain ⟨strategy, hn⟩ := Option.isSome_iff_exists.mp hn
    rw [taught.annotations] at hn
    -- a strategy that was not known is recorded by the end of an evaluation of its node
    rcases (hb.informed.runs hr).faithful.strategy_lesson hn with hold | rfl
    · obtain ⟨rest', m₀, m₁, hu, hrun, hl⟩ := ih (by rw [hold]; rfl)
      exact ⟨rest', m₀, m₁, hu, hrun, hl.step hs⟩
    · obtain ⟨m₀, z₀, hbegin, hz, hrun⟩ := Runs.evaluated_of_head hr rfl
      have he : (Task.settle n).exec job my = .ok [] _ := rfl
      cases hs.unique (.done he)
      exact ⟨rest, m₀, _, hb.underway.runs hbegin, .head hz (hrun.tail (.done he)), .refl⟩

/-- An evaluation of `n` was completed in an earlier action of a session. -/
def Session.Past (job : Job) (units : NodeId → Prop) (n : NodeId) (s : Session) : Prop :=
  ∃ (y : Agenda × Machine) (s₀ : Session) (unit : NodeId) (steps : Nat), Completed job units n y ∧
    s₀.Begins job units unit ∧ Runs job ([.unit unit], s₀.machine) y ∧
    (s₀.runUnit steps unit).1.ended ∧ (s₀.runUnit steps unit).2.Rests s

namespace Session

theorem Past.completed {s : Session} (h : s.Past job units n) (hb : s.Begins job units unit) :
    Completed job units n ([.unit unit], s.machine) := by
  obtain ⟨y, s₀, unit₀, steps, ⟨rest, m₀, m₁, hu, hrun, hl⟩, hb₀, hr, he, hs⟩ := h
  exact ⟨rest, m₀, m₁, hu, hrun, .next hl hb₀ hr he hs hb⟩

theorem Past.atRest {s : Session} (h : s.Past job units n) : s.atRest.Past job units n := by
  obtain ⟨y, s₀, unit₀, steps, hc, hb₀, hr, he, hs⟩ := h
  exact ⟨y, s₀, unit₀, steps, hc, hb₀, hr, he, hs.atRest⟩

theorem Past.clear {s : Session} (h : s.Past job units n) : s.clear.Past job units n := by
  obtain ⟨y, s₀, unit₀, steps, hc, hb₀, hr, he, hs⟩ := h
  exact ⟨y, s₀, unit₀, steps, hc, hb₀, hr, he, hs.clear⟩

theorem Begins.past {s : Session} (hb : s.Begins job units unit)
    (hpast : ∀ n, (s.machine.annotations.strategy n).isSome → s.Past job units n) {steps : Nat}
    (he : (s.runUnit steps unit).1.ended)
    (hn : ((s.runUnit steps unit).2.machine.annotations.strategy n).isSome) :
    (s.runUnit steps unit).2.Past job units n := by
  obtain rfl := hb.job_eq
  obtain ⟨m, hm, hl⟩ := runUnit_leaves he
  have same : (s.runUnit steps unit).2.machine.annotations = m.annotations :=
    congrArg Prod.fst hl.learnt
  rw [same] at hn
  have completed {y : Agenda × Machine} (hr : Runs s.job ([.unit unit], s.machine) y)
      (hn : (y.2.annotations.strategy n).isSome) : (s.runUnit steps unit).2.Past s.job units n :=
    ⟨y, s, unit, steps, hb.completed (fun n hn => (hpast n hn).completed hb) hr hn, hb, hr, he, .refl⟩
  rcases hm with hr | ⟨signal, hesc⟩
  · exact completed hr hn
  · obtain ⟨t, rest, m₀, hr, hgoes, taught⟩ := Escapes.teaches hesc
    obtain ⟨strategy, hn⟩ := Option.isSome_iff_exists.mp hn
    rw [taught.annotations] at hn
    rcases (hb.informed.runs hr).faithful.strategy_lesson hn with hold | rfl
    · exact completed hr (by rw [hold]; rfl)
    · cases hgoes

theorem Reached.past {s : Session} (h : Reached job units s)
    (hn : (s.machine.annotations.strategy n).isSome) : s.Past job units n := by
  induction h generalizing n with
  | new source keepsText =>
    simp [Session.new, Machine.new, Annotations.strategy, Annotations.entry_new,
      Annotation.blank] at hn
  | @run s h steps he ih =>
    have same : s.job = job := h.job_eq
    subst same
    exact Begins.past (.run h) (fun n hn => ih hn) he hn
  | @resume s h steps unit hu he ih =>
    exact Begins.past (.resume h hu) (fun n hn => (ih hn).atRest) he hn
  | clear h ih => exact (ih hn).clear

end Session

/-- A node has a strategy just when an evaluation of it was completed. -/
theorem Underway.strategy_iff (h : Underway job units A m) :
    (m.annotations.strategy n).isSome ↔ Completed job units n (A, m) := by
  constructor
  · intro hn
    obtain ⟨s, unit, hb, hr⟩ := h.exists_begins
    refine hb.completed (fun k hk => ?_) hr hn
    cases hb with
    | run h => exact (h.past hk).completed (.run h)
    | resume h hu => exact ((h.past hk).atRest).completed (.resume h hu)
  · rintro ⟨rest, m₀, m₁, hu, hrun, hl⟩
    obtain ⟨s, hs⟩ := Option.isSome_iff_exists.mp (hu.strategy_of_completed hrun)
    rw [(hl.extends).strategy n s hs]
    rfl

/-- The chain that a task finds, and the clause whose chain that is. -/
def Task.found (p : Program) : Task → Option (NodeId × List ChainStep)
  | .clause n _ =>
    match p.tree.kind n with
    | .serialClause scope items =>
      if (p.scopes.get scope).hasLabels then none else some (n, p.tree.flatten (p.tree.list items))
    | _ => none
  | .elaborate n =>
    match p.tree.kind n with
    | .integerCase _ _ items _ | .conformityCase _ _ items _ =>
      some (n, (ChainStep.units (p.tree.flatten (p.tree.list items))).map .unit)
    | _ => none
  | _ => none

theorem Task.chainOf_of_found {p : Program} {t : Task} {c : List ChainStep}
    (h : t.found p = some (n, c)) : p.chainOf n = some c := by
  cases t with
  | clause k enquiry =>
    simp only [found] at h
    split at h
    · next hk =>
      split at h
      · cases h
      · next hl =>
        cases h
        simp [Program.chainOf, hk, hl]
    · cases h
  | elaborate k =>
    simp only [found] at h
    split at h
    · next hk =>
      cases h
      simp [Program.chainOf, hk]
    · next hk =>
      cases h
      simp [Program.chainOf, hk]
    · cases h
  | _ => cases h

/-- In every state of every session, of any program. What is recorded of a node stays as it is, and a task
that finds its chain again, or ends an evaluation of it, would record the same. No chain is being made,
and the flags tell whether a chain is recorded, whether it is that of a serial clause and whether it
is one unit. The chain is what there is to record. A strategy is recorded just for the nodes an
evaluation of which was completed, and one that leads to another node stands at a closed clause
without locals, which consists of that node and has its mode. If evaluation is counted, the chains
that were found are those of the serial clauses with a chain. -/
theorem annotations_kept (h : Underway job units A m) :
    (∀ y, Later job units (A, m) y →
      (∀ n c, m.annotations.chain n = some c → y.2.annotations.chain n = some c ∧
        ∀ t rest d, y.1 = t :: rest → t.found job.program = some (n, d) → d = c) ∧
      ∀ n s, m.annotations.strategy n = some s → y.2.annotations.strategy n = some s ∧
        ∀ rest, y.1 = .settle n :: rest → Exec.strategyOf job y.2.annotations n = s) ∧
    (∀ n, (m.annotations.flags n).linearizing = false ∧
      ((m.annotations.flags n).linearized ↔ (m.annotations.chain n).isSome) ∧
      ((m.annotations.flags n).labelFree ↔
        (m.annotations.flags n).linearized ∧ (job.program.tree.kind n).isSerial) ∧
      ((m.annotations.flags n).singleStep ↔ ∃ u, m.annotations.chain n = some [.unit u])) ∧
    (∀ n c, m.annotations.chain n = some c → job.program.chainOf n = some c) ∧
    (∀ n, (m.annotations.strategy n).isSome ↔ Completed job units n (A, m)) ∧
    (∀ n s, m.annotations.strategy n = some s → s.source ≠ n → ∃ scope serial,
      job.program.tree.kind n = .closed scope serial ∧
      (job.program.scopes.get scope).locals = #[] ∧ (job.program.tree.kind serial).isSerial ∧
      m.annotations.chain serial = some [.unit s.source] ∧
      job.program.tree.mode s.source = job.program.tree.mode n) ∧
    ∀ k, m.counters = some k → k.linearizations = m.annotations.labelFree.card := by
  have informed := h.informed
  have faithful := informed.faithful
  refine ⟨fun y hy => ⟨fun n c hn => ?_, fun n s hn => ?_⟩, fun n => ?_, faithful.chain,
    fun n => h.strategy_iff, fun n s => faithful.reduced, informed.counted⟩
  · refine ⟨hy.extends.chain n c hn, fun t rest d ht hd => ?_⟩
    have hd := Task.chainOf_of_found hd
    rw [faithful.chain n c hn] at hd
    exact (Option.some.inj hd).symm
  · have kept := hy.extends.strategy n s hn
    refine ⟨kept, fun rest ht => ?_⟩
    have later : Underway job units y.1 y.2 := (hy.outlast_any h).1
    exact (later.informed.faithful.strategy n s kept).2.symm
  · rw [faithful.flags n]
    cases hc : m.annotations.chain n with
    | none => simp [Program.flagsOf, Flags.none]
    | some c =>
      refine ⟨rfl, by simp [Program.flagsOf], by simp [Program.flagsOf], ?_⟩
      simp only [Program.flagsOf, Option.some.injEq]
      split <;> simp_all

/-- The program `(SKIP)`, with evaluation counted. -/
def pause : Job where
  program := {
    tree := {
      nodes := #[⟨.skip, .void, .dummy⟩, ⟨.serialClause ⟨1⟩ ⟨0, 1⟩, .void, .dummy⟩,
        ⟨.closed ⟨1⟩ ⟨1⟩, .void, .dummy⟩]
      lists := #[⟨0⟩]
      modeLists := #[]
      loops := #[]
      alternatives := #[] }
    modes := .new
    scopes := ⟨#[.standard, ⟨some .standard, 1, #[], false⟩]⟩
    labels := ⟨#[]⟩
    interner := .new
    root := ⟨2⟩
    environs := #[] }
  oracle := ModeTable.oracle .new
  config := { Config.default with profile := true }

/-- When `pause` is run again, its closed clause is known to consist of the skip. -/
theorem pause_kept : ∃ m, Underway pause (fun _ => False) [.unit ⟨2⟩] m ∧
    m.annotations.chain ⟨1⟩ = some [.unit ⟨0⟩] ∧ (m.annotations.flags ⟨1⟩).singleStep ∧
    m.annotations.strategy ⟨2⟩ = some ⟨.unit, ⟨0⟩⟩ ∧
    Completed pause (fun _ => False) ⟨2⟩ ([.unit ⟨2⟩], m) ∧ m.annotations.labelFree.card = 1 := by
  obtain ⟨m, k, h, hchain, hstrategy, hk, hone⟩ : ∃ m k,
      Underway pause (fun _ => False) [.unit ⟨2⟩] m ∧
      m.annotations.chain ⟨1⟩ = some [.unit ⟨0⟩] ∧
      m.annotations.strategy ⟨2⟩ = some ⟨.unit, ⟨0⟩⟩ ∧ m.counters = some k ∧
      k.linearizations = 1 := by
    have ended : ((Session.new pause none false).run 20).1.ended := by decide +kernel
    exact ⟨_, _, .run (.run (.new none false) 20 ended), rfl, rfl, rfl, rfl⟩
  obtain ⟨-, flags, -, strategies, -, counted⟩ := annotations_kept h
  refine ⟨m, h, hchain, (flags ⟨1⟩).2.2.2.mpr ⟨_, hchain⟩, hstrategy, ?_, ?_⟩
  · exact (strategies ⟨2⟩).mp (by rw [hstrategy]; rfl)
  · rw [← counted k hk, hone]

end Algol68
