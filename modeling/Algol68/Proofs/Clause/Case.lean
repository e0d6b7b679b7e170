import Algol68.Proofs.Annotation.WriteOnce
import Algol68.Proofs.Clause.Nesting
import Algol68.Proofs.Clause.Stretch
import Algol68.Proofs.Loop.Entry
import Algol68.Proofs.Stack.Limit

/-! Case clauses. Every visit of one goes the same way: a frame is opened, the enquiry is evaluated, one
task looks at its value and puts the chosen work in its place, and when that is done the frame is closed.
The alternatives are the units of the text, whether they were recorded by an earlier visit or not. -/

namespace Algol68

open Exec (wp)

variable {job : Job} {units : NodeId → Prop} {m m₀ m₁ m₂ m' : Machine} {n enquiry : NodeId}
  {scope : ScopeId} {t : Task} {W A rest : Agenda} {y : Agenda × Machine} {mode : ModeId}
  {out : Option NodeId}

/-! The alternatives. -/

/-- The units of a text up to its first `EXIT`. -/
def ClauseItem.alternatives (L : List ClauseItem) : List NodeId :=
  (L.takeWhile (· ≠ .exit)).filterMap unit?

theorem ClauseItem.units_chain (L : List ClauseItem) :
    ChainStep.units (chain L).steps = alternatives L := by
  induction L with
  | nil => rfl
  | cons i L ih =>
    cases i with
    | unit k | labelled item k => simpa [chain, ChainStep.units, alternatives, unit?] using ih
    | boundary =>
      simp only [alternatives, ne_eq, reduceCtorEq, not_false_eq_true, decide_true,
        List.takeWhile_cons_of_pos]
      exact ih
    | exit => rfl

theorem Tree.Reads.units_flatten {tree : Tree} {items : List NodeId} {L : List ClauseItem}
    (h : tree.Reads items L) : ChainStep.units (tree.flatten items) = ClauseItem.alternatives L := by
  rw [tree.flatten_eq, h.clauseItems_eq, ClauseItem.units_chain]

/-- A case clause: the range that is opened for it, its enquiry, and the task that chooses among its
alternatives. -/
inductive Cases (p : Program) (n : NodeId) : ScopeId → NodeId → Task → Prop where
  | integer {scope : ScopeId} {enquiry : NodeId} {items : NodeRange} {out : Option NodeId}
      {L : List ClauseItem} (kind : p.tree.kind n = .integerCase scope enquiry items out)
      (reads : p.tree.Reads (p.tree.list items) L) :
      Cases p n scope enquiry (.choose (ClauseItem.alternatives L) out (p.tree.mode n))
  | conformity {scope : ScopeId} {enquiry : NodeId} {items : NodeRange} {out : Option NodeId}
      {L : List ClauseItem} (kind : p.tree.kind n = .conformityCase scope enquiry items out)
      (reads : p.tree.Reads (p.tree.list items) L) :
      Cases p n scope enquiry (.conform (ClauseItem.alternatives L) out (p.tree.mode n))

/-- The machine with one more unit counted. -/
def Machine.counting (m : Machine) : Machine :=
  { m with counters := m.counters.map fun c => { c with units := c.units + 1 } }

/-- The machine that knows the alternatives of a case clause. -/
def Machine.charted (job : Job) (m : Machine) (n : NodeId) : Machine :=
  { m with annotations := m.annotations.charted job.program n }

namespace Exec

theorem strategyOf_source (hn : ∀ scope serial, job.program.tree.kind n ≠ .closed scope serial)
    (a : Annotations) : (strategyOf job a n).source = n := by
  unfold strategyOf
  split
  · next hk => exact absurd hk (hn _ _)
  all_goals rfl

/-- A unit that is no closed clause is elaborated itself, whether it was evaluated before or not. -/
theorem exec_unit (h : m.annotations.Faithful job)
    (hn : ∀ scope serial, job.program.tree.kind n ≠ .closed scope serial) :
    ∃ e, e.ends = some n ∧ (Task.unit n).exec job m = .ok [.elaborate n, e] m.counting := by
  have recorded {s : Strategy} (hs : m.annotations.strategy n = some s) : s.source = n :=
    (congrArg Strategy.source (h.strategy n s hs).2).trans (strategyOf_source hn _)
  have work : wp ((Task.unit n).exec job)
      (fun W m' => ∃ e, e.ends = some n ∧ W = [.elaborate n, e] ∧ m' = m.counting)
      (fun _ _ => False) m := by
    simp only [Task.exec, Exec.unit, wp_bind, wp_count, wp_get]
    split
    · exact ⟨_, rfl, rfl, rfl⟩
    · next source hs =>
      obtain rfl : source = n := recorded hs
      exact ⟨_, rfl, by rw [if_pos rfl], rfl⟩
    · next source _ hs =>
      obtain rfl : source = n := recorded hs
      exact ⟨_, rfl, rfl, rfl⟩
  obtain ⟨W, m', hx, e, he, rfl, rfl⟩ := exists_of_wp work
  exact ⟨e, he, hx⟩

theorem alternatives_eq {items : NodeRange} (h : m.annotations.Faithful job)
    (hc : job.program.chainOf n = some ((ChainStep.units
      (job.program.tree.flatten (job.program.tree.list items))).map .unit))
    (hk : (job.program.tree.kind n).isCase) : alternatives job n (job.program.tree.list items) m =
      .ok (ChainStep.units (job.program.tree.flatten (job.program.tree.list items)))
        (m.charted job n) := by
  have serial := NodeKind.isSerial_of_isCase hk
  refine eq_ok_of_wp ?_
  simp only [alternatives, wp_bind, wp_get]
  split
  · next c known =>
    obtain rfl := Option.some.inj ((h.chain n c known).symm.trans hc)
    exact ⟨ChainStep.units_map_unit _, by rw [Machine.charted, Annotations.charted_of_known known]⟩
  · next new =>
    simp only [wp_bind, wp_annotate, wp_pure]
    refine ⟨trivial, ?_⟩
    rw [Machine.charted, Annotations.charted_of_new new hc, serial]
    rfl

theorem exec_cases_iff (h : Cases job.program n scope enquiry t) (ha : m.annotations.Faithful job) :
    (Task.elaborate n).exec job m = .ok W m₀ ↔
      Exec.enter job scope (m.charted job n) = .ok m.frames.depth m₀ ∧
        W = [.clause enquiry true, t, .leave m.frames.depth,
          .yields (job.program.tree.mode n) m.stack.size] := by
  have begins : (Task.elaborate n).exec job m = (do
      let before ← Exec.enter job scope
      return [.clause enquiry true, t, .leave before, .yields (job.program.tree.mode n) m.stack.size] :
        Exec Agenda) (m.charted job n) := by
    cases h with
    | @integer items out L kind reads | @conformity items out L kind reads =>
      have alternatives : Exec.alternatives job n (job.program.tree.list items) m =
          .ok _ (m.charted job n) :=
        alternatives_eq ha (by simp [Program.chainOf, kind]) (by rw [kind]; rfl)
      rw [reads.units_flatten] at alternatives
      have deep : Exec.depth m = .ok m.stack.size m := rfl
      simp only [Task.exec, elaborate, kind, enclosed, bind, EStateM.bind, deep, alternatives]
      cases Exec.enter job _ (m.charted job n) <;> rfl
  rw [begins]
  simp only [bind, EStateM.bind]
  cases hx : Exec.enter job scope (m.charted job n) with
  | error s m₁ => simp
  | ok before m₁ =>
    obtain ⟨rfl, -, -⟩ := LoopParts.enter_eq_ok hx
    constructor
    · intro h
      cases h
      exact ⟨rfl, rfl⟩
    · rintro ⟨h, rfl⟩
      cases h
      rfl

end Exec

/-! The course of a visit. -/

/-- The enquiry of a case clause was evaluated, in a frame opened for it. -/
def Asked (job : Job) (n : NodeId) (scope : ScopeId) (enquiry : NodeId) (m m₁ : Machine) : Prop :=
  ∃ m₀, Exec.enter job scope (m.charted job n) = .ok m.frames.depth m₀ ∧
    Runs job ([.clause enquiry true], m₀) ([], m₁)

/-- The states that a visit of a case clause passes through. After the enquiry the task that chooses is
replaced by the work that `chooses` gives; that is done, and nothing else. -/
inductive Visits (job : Job) (n : NodeId) (scope : ScopeId) (enquiry : NodeId) (t : Task)
    (chooses : Machine → Agenda → Machine → Prop) (m : Machine) : Agenda × Machine → Prop where
  | begun : Visits job n scope enquiry t chooses m ([.elaborate n], m)
  | asking {m₀ m' : Machine} {A : Agenda}
      (entered : Exec.enter job scope (m.charted job n) = .ok m.frames.depth m₀)
      (asks : Runs job ([.clause enquiry true], m₀) (A, m')) :
      Visits job n scope enquiry t chooses m (A ++ [t, .leave m.frames.depth,
        .yields (job.program.tree.mode n) m.stack.size], m')
  | serving {m₁ m₂ m' : Machine} {W A : Agenda} (asked : Asked job n scope enquiry m m₁)
      (chosen : chooses m₁ W m₂) (serves : Runs job (W, m₂) (A, m')) :
      Visits job n scope enquiry t chooses m (A ++ [.leave m.frames.depth,
        .yields (job.program.tree.mode n) m.stack.size], m')
  | left {m₁ m₂ m₃ : Machine} {W : Agenda} (asked : Asked job n scope enquiry m m₁)
      (chosen : chooses m₁ W m₂) (served : Runs job (W, m₂) ([], m₃)) :
      Visits job n scope enquiry t chooses m ([.yields (job.program.tree.mode n) m.stack.size],
        { m₃ with frames := m₃.frames.truncate m.frames.depth })
  | done {m₁ m₂ m₃ : Machine} {W : Agenda} (asked : Asked job n scope enquiry m m₁)
      (chosen : chooses m₁ W m₂) (served : Runs job (W, m₂) ([], m₃))
      (balanced : m₃.stack.size = m.stack.size + (job.program.tree.mode n).worth) :
      Visits job n scope enquiry t chooses m ([],
        { m₃ with frames := m₃.frames.truncate m.frames.depth })

theorem Exec.exec_yields_iff {baseline : Nat} : (Task.yields mode baseline).exec job m = .ok W m' ↔
    W = [] ∧ m' = m ∧ m.stack.size = baseline + mode.worth := by
  have expected : (if mode = .void then baseline else baseline + 1) = baseline + mode.worth := by
    unfold ModeId.worth
    split <;> rfl
  by_cases heq : m.stack.size = baseline + mode.worth
  · have passes : (Task.yields mode baseline).exec job m = .ok [] m := by
      refine eq_ok_of_wp ?_
      simp [Task.exec, Exec.yields, expected, heq]
    rw [passes]
    constructor
    · intro h
      cases h
      exact ⟨rfl, rfl, heq⟩
    · rintro ⟨rfl, rfl, -⟩
      rfl
  · have fails : wp ((Task.yields mode baseline).exec job) (fun _ _ => False) (fun _ _ => True) m := by
      simp [Task.exec, Exec.yields, expected, heq]
    refine ⟨fun h => (wp_ok fails h).elim, fun h => absurd h.2.2 heq⟩

namespace Cases

variable {chooses : Machine → Agenda → Machine → Prop}

theorem unlabelled (h : Cases job.program n scope enquiry t) (depth baseline : Nat) :
    Agenda.Unlabelled [t, .leave depth, .yields mode baseline] := by
  cases h <;> simp [Agenda.Unlabelled]

theorem does_leave (depth baseline : Nat) (mode : ModeId) (m₃ : Machine) :
    Does job ([.leave depth, .yields mode baseline], m₃)
      ([.yields mode baseline], { m₃ with frames := m₃.frames.truncate depth }) :=
  .done (show (Task.leave depth).exec job m₃ = .ok [] _ from rfl)

/-- Work in a frame that is closed after it, with a check of its own behind it: the work runs, and
when it has ended the frame is closed, and then the check is passed. -/
theorem runs_closing {depth baseline : Nat} {mode : ModeId} {m₂ : Machine} {W : Agenda}
    (hr : Runs job (W ++ [.leave depth, .yields mode baseline], m₂) y) :
    (∃ A m', Runs job (W, m₂) (A, m') ∧ y = (A ++ [.leave depth, .yields mode baseline], m')) ∨
      ∃ m₃, Runs job (W, m₂) ([], m₃) ∧
        (y = ([.yields mode baseline], { m₃ with frames := m₃.frames.truncate depth }) ∨
          m₃.stack.size = baseline + mode.worth ∧
            y = ([], { m₃ with frames := m₃.frames.truncate depth })) := by
  have leaving : Agenda.Unlabelled [.leave depth, .yields mode baseline] := by
    simp [Agenda.Unlabelled]
  rcases Runs.cut leaving hr with ⟨A, hA, serves⟩ | ⟨m₃, served, hr⟩
  · obtain ⟨Y, my⟩ := y
    exact .inl ⟨A, my, serves, Prod.ext hA rfl⟩
  rcases Relation.ReflTransGen.cases_head hr with rfl | ⟨z, hs, hr⟩
  · exact .inl ⟨[], m₃, served, rfl⟩
  obtain rfl := hs.unique (does_leave depth baseline mode m₃)
  refine .inr ⟨m₃, served, ?_⟩
  rcases Relation.ReflTransGen.cases_head hr with rfl | ⟨⟨Z, m₄⟩, hs, hr⟩
  · exact .inl rfl
  obtain ⟨rfl, rfl, balanced⟩ := Exec.exec_yields_iff.mp (does_single_iff.mp hs)
  obtain rfl := Relation.ReflTransGen.cases_head hr |>.resolve_right fun ⟨_, hd, _⟩ => nomatch hd
  exact .inr ⟨balanced, rfl⟩

/-- The runs of a case clause are its visits, where `chooses` says what the task that chooses does. -/
theorem runs_iff_visits (h : Cases job.program n scope enquiry t) (ha : m.annotations.Faithful job)
    (hc : ∀ m₁ W m₂, Asked job n scope enquiry m m₁ →
      (t.exec job m₁ = .ok W m₂ ↔ chooses m₁ W m₂)) :
    Runs job ([.elaborate n], m) y ↔ Visits job n scope enquiry t chooses m y := by
  have begins {m₀ : Machine} (entered : Exec.enter job scope (m.charted job n) = .ok m.frames.depth m₀) :
      Does job ([.elaborate n], m) ([.clause enquiry true] ++ [t, .leave m.frames.depth,
        .yields (job.program.tree.mode n) m.stack.size], m₀) :=
    does_single_iff.mpr ((Exec.exec_cases_iff h ha).mpr ⟨entered, rfl⟩)
  have serves {m₁ m₂ : Machine} {W : Agenda} (asked : Asked job n scope enquiry m m₁)
      (chosen : chooses m₁ W m₂) : Runs job ([.elaborate n], m) (W ++ [.leave m.frames.depth,
        .yields (job.program.tree.mode n) m.stack.size], m₂) := by
    obtain ⟨m₀, entered, hr⟩ := asked
    refine .head (begins entered) ((hr.append _).tail ?_)
    exact .done ((hc m₁ W m₂ ⟨m₀, entered, hr⟩).mpr chosen)
  constructor
  · intro hr
    rcases Relation.ReflTransGen.cases_head hr with rfl | ⟨⟨Z, m₀⟩, hs, hr⟩
    · exact .begun
    obtain ⟨entered, hZ⟩ := (Exec.exec_cases_iff h ha).mp (does_single_iff.mp hs)
    subst hZ
    rcases Runs.cut (A := [.clause enquiry true]) (h.unlabelled _ _) hr with ⟨A, hA, asks⟩ | ⟨m₁, asks, hr⟩
    · obtain ⟨Y, my⟩ := y
      obtain rfl : Y = _ := hA
      exact .asking entered asks
    have asked : Asked job n scope enquiry m m₁ := ⟨m₀, entered, asks⟩
    rcases Relation.ReflTransGen.cases_head hr with rfl | ⟨⟨Z, m₂⟩, hs, hr⟩
    · exact .asking entered asks
    obtain ⟨W, hZ, hd⟩ := hs.cut (A := []) (by simp [Agenda.Unlabelled])
    subst hZ
    have chosen := (hc m₁ W m₂ asked).mp (does_single_iff.mp hd)
    rcases runs_closing hr with ⟨A, m', serves, rfl⟩ | ⟨m₃, served, rfl | ⟨balanced, rfl⟩⟩
    · exact .serving asked chosen serves
    · exact .left asked chosen served
    · exact .done asked chosen served balanced
  · intro hv
    cases hv with
    | begun => exact .refl
    | asking entered asks => exact .head (begins entered) (asks.append _)
    | serving asked chosen hr => exact (serves asked chosen).trans (hr.append _)
    | left asked chosen served =>
      exact ((serves asked chosen).trans (served.append _)).tail (does_leave ..)
    | done asked chosen served balanced =>
      refine (((serves asked chosen).trans (served.append _)).tail (does_leave ..)).tail ?_
      exact does_single_iff.mpr (Exec.exec_yields_iff.mpr ⟨rfl, rfl, balanced⟩)

theorem underway_entered (h : Cases job.program n scope enquiry t)
    (hu : Underway job units (.elaborate n :: rest) m)
    (entered : Exec.enter job scope (m.charted job n) = .ok m.frames.depth m₀) :
    Underway job units (.clause enquiry true :: t :: .leave m.frames.depth ::
      .yields (job.program.tree.mode n) m.stack.size :: rest) m₀ :=
  hu.step (.done ((Exec.exec_cases_iff h hu.informed.faithful).mpr ⟨entered, rfl⟩))

theorem underway_asked (h : Cases job.program n scope enquiry t)
    (hu : Underway job units (.elaborate n :: rest) m) (asked : Asked job n scope enquiry m m₁) :
    Underway job units (t :: .leave m.frames.depth ::
      .yields (job.program.tree.mode n) m.stack.size :: rest) m₁ := by
  obtain ⟨m₀, entered, hr⟩ := asked
  exact (h.underway_entered hu entered).runs (hr.append _)

theorem not_closed (h : Cases job.program n scope enquiry t) (scope' : ScopeId) (serial : NodeId) :
    job.program.tree.kind n ≠ .closed scope' serial := by
  cases h with
  | integer kind reads | conformity kind reads => simp [kind]

/-- Every visit of a case clause elaborates the clause itself, and its runs are the states of a visit. -/
theorem visited (h : Cases job.program n scope enquiry t) (hu : Underway job units (.unit n :: rest) m)
    (hc : ∀ m₁ W m₂, m₁.stack.size ≤ job.config.stackLimit →
      (t.exec job m₁ = .ok W m₂ ↔ chooses m₁ W m₂)) :
    ∃ e, e.ends = some n ∧
      Does job (.unit n :: rest, m) (.elaborate n :: e :: rest, m.counting) ∧
      ∀ y, Runs job ([.elaborate n], m.counting) y ↔
        Visits job n scope enquiry t chooses m.counting y := by
  obtain ⟨e, he, hx⟩ := Exec.exec_unit hu.informed.faithful h.not_closed
  have hs : Does job (.unit n :: rest, m) (.elaborate n :: e :: rest, m.counting) := .done hx
  have hu' := hu.step hs
  exact ⟨e, he, hs, fun y => h.runs_iff_visits hu'.informed.faithful fun m₁ W m₂ asked =>
    hc m₁ W m₂ (h.underway_asked hu' asked).stack_le⟩

end Cases

/-! Selection by an integer. -/

namespace Exec

theorem popInt_eq_ok_iff {k : Int64} :
    popInt m = .ok k m' ↔ ∃ S, m.stack = S.push (.int k) ∧ m' = { m with stack := S } := by
  have pops : wp popInt (fun k m' => ∃ S, m.stack = S.push (.int k) ∧ m' = { m with stack := S })
      (fun _ _ => True) m := by
    simp only [popInt, wp_bind, wp_pop, wp_lift]
    refine ⟨fun S v hS => ⟨fun k hk => ?_, fun _ _ => trivial⟩, fun _ => trivial⟩
    cases v <;> cases hk
    exact ⟨S, hS, rfl⟩
  refine ⟨wp_ok pops, ?_⟩
  rintro ⟨S, hS, rfl⟩
  simp only [popInt, bind, EStateM.bind, pop_eq hS]
  rfl

theorem nth_eq_some_iff {as : List NodeId} {k : Int64} {u : NodeId} :
    nth as k = some u ↔ ∃ i : Nat, k.toInt = i + 1 ∧ as[i]? = some u := by
  unfold nth
  split
  · next hk =>
    refine ⟨fun h => ⟨_, by omega, h⟩, ?_⟩
    rintro ⟨i, hi, h⟩
    rwa [show (k.toInt - 1).toNat = i by omega]
  · next hk =>
    refine ⟨nofun, ?_⟩
    rintro ⟨i, hi, -⟩
    omega

theorem nth_eq_none_iff {as : List NodeId} {k : Int64} :
    nth as k = none ↔ k.toInt < 1 ∨ as.length < k.toInt := by
  unfold nth
  split
  · next hk =>
    rw [List.getElem?_eq_none_iff]
    omega
  · next hk => exact ⟨fun _ => .inl (by omega), fun _ => rfl⟩

end Exec

/-- The machine with the undefined value of a mode on the stack, or nothing for `VOID`. -/
def Machine.vacant (job : Job) (m : Machine) (mode : ModeId) : Machine := { m with
  stack := if mode = .void then m.stack else m.stack.push (Value.undefinedOf job.program.modes mode) }

/-- The work a case clause does when none of its alternatives is chosen: the `OUT` part, or nothing for
the undefined value of its mode. -/
inductive Defaults (job : Job) (out : Option NodeId) (mode : ModeId) (m : Machine) :
    Agenda → Machine → Prop where
  | out {unit : NodeId} (h : out = some unit) : Defaults job out mode m [.unit unit] m
  | absent (h : out = none) : Defaults job out mode m [] (m.vacant job mode)

theorem Exec.orUndefined_iff (room : m.stack.size < job.config.stackLimit) :
    Exec.orUndefined job mode out m = .ok W m' ↔ Defaults job out mode m W m' := by
  cases out with
  | some unit =>
    constructor
    · intro h
      cases h
      exact .out rfl
    · rintro (h | h) <;> cases h
      rfl
  | none =>
    have pushes : Exec.orUndefined job mode none m = .ok [] (m.vacant job mode) := by
      refine eq_ok_of_wp ?_
      simp only [orUndefined, pushUndefined, Machine.vacant, wp_bind, wp_ite, wp_pure, wp_push]
      refine ⟨fun hv => ⟨trivial, by rw [if_pos hv]⟩, fun hv => ⟨fun full => ?_, fun _ =>
        ⟨trivial, by rw [if_neg hv]⟩⟩⟩
      omega
    rw [pushes]
    constructor
    · intro h
      cases h
      exact .absent rfl
    · rintro (h | h) <;> cases h
      rfl

/-- The work an integer case clause chooses: the alternative of the number on the stack, counted from one,
or the default if there is none of that number. -/
inductive Selects (job : Job) (as : List NodeId) (out : Option NodeId) (mode : ModeId) (m : Machine) :
    Agenda → Machine → Prop where
  | nth {S : Array Value} {k : Int64} {i : Nat} {u : NodeId} (top : m.stack = S.push (.int k))
      (number : k.toInt = i + 1) (is : as[i]? = some u) :
      Selects job as out mode m [.unit u] { m with stack := S }
  | outside {S : Array Value} {k : Int64} {W : Agenda} {m' : Machine}
      (top : m.stack = S.push (.int k)) (number : k.toInt < 1 ∨ as.length < k.toInt)
      (default : Defaults job out mode { m with stack := S } W m') : Selects job as out mode m W m'

theorem Exec.exec_choose_iff {as : List NodeId} (hle : m.stack.size ≤ job.config.stackLimit) :
    (Task.choose as out mode).exec job m = .ok W m' ↔ Selects job as out mode m W m' := by
  have chooses {S : Array Value} {k : Int64} (hS : m.stack = S.push (.int k)) :
      (Task.choose as out mode).exec job m =
        Exec.orUndefined job mode ((Exec.nth as k).or out) { m with stack := S } := by
    have pops := popInt_eq_ok_iff.mpr ⟨S, hS, rfl⟩
    simp only [Task.exec, bind, EStateM.bind, pops]
  have room {S : Array Value} {k : Int64} (hS : m.stack = S.push (.int k)) :
      S.size < job.config.stackLimit := by
    rw [hS, Array.size_push] at hle
    exact hle
  constructor
  · intro h
    obtain ⟨k, m₁, hpop⟩ : ∃ k m₁, popInt m = .ok k m₁ := by
      cases hx : popInt m with
      | ok k m₁ => exact ⟨k, m₁, rfl⟩
      | error s m₁ => simp [Task.exec, bind, EStateM.bind, hx] at h
    obtain ⟨S, hS, -⟩ := popInt_eq_ok_iff.mp hpop
    rw [chooses hS] at h
    cases hn : Exec.nth as k with
    | some u =>
      obtain ⟨i, number, is⟩ := nth_eq_some_iff.mp hn
      rw [hn] at h
      cases h
      exact .nth hS number is
    | none =>
      rw [hn] at h
      exact .outside hS (nth_eq_none_iff.mp hn) ((orUndefined_iff (room hS)).mp h)
  · intro h
    cases h with
    | nth top number is =>
      rw [chooses top, nth_eq_some_iff.mpr ⟨_, number, is⟩]
      rfl
    | outside top number default =>
      rw [chooses top, nth_eq_none_iff.mpr number]
      exact (orUndefined_iff (room top)).mpr default

/-- Integer case clauses. However the alternatives are grouped, every visit evaluates the enquiry once and
then the alternative of the number that the enquiry yields, counted from one, and no other; if there is none
of that number, the `OUT` part, or nothing at all where it is absent: then the clause yields the undefined
value of its mode. -/
theorem integer_cases_select {items : NodeRange} {L : List ClauseItem}
    (hk : job.program.tree.kind n = .integerCase scope enquiry items out)
    (hr : job.program.tree.Reads (job.program.tree.list items) L)
    (hu : Underway job units (.unit n :: rest) m) :
    ∃ e, e.ends = some n ∧
      Does job (.unit n :: rest, m) (.elaborate n :: e :: rest, m.counting) ∧
      ∀ y, Runs job ([.elaborate n], m.counting) y ↔
        Visits job n scope enquiry
          (.choose (ClauseItem.alternatives L) out (job.program.tree.mode n))
          (Selects job (ClauseItem.alternatives L) out (job.program.tree.mode n)) m.counting y :=
  (Cases.integer hk hr).visited hu fun _ _ _ => Exec.exec_choose_iff

/-- The clause `CASE 2 IN 10, 20 OUT 30 ESAC`, its second alternative in a group behind a separator. -/
def grouped : Job where
  program := {
    tree := {
      nodes := #[⟨.literal (.int 2), .int, .dummy⟩, ⟨.serialClause ⟨1⟩ ⟨0, 1⟩, .int, .dummy⟩,
        ⟨.literal (.int 10), .int, .dummy⟩, ⟨.punct, .void, .dummy⟩, ⟨.separator, .void, .dummy⟩,
        ⟨.literal (.int 20), .int, .dummy⟩, ⟨.group ⟨1, 2⟩, .void, .dummy⟩,
        ⟨.literal (.int 30), .int, .dummy⟩, ⟨.integerCase ⟨1⟩ ⟨1⟩ ⟨3, 3⟩ (some ⟨7⟩), .int, .dummy⟩]
      lists := #[⟨0⟩, ⟨4⟩, ⟨5⟩, ⟨2⟩, ⟨3⟩, ⟨6⟩]
      modeLists := #[]
      loops := #[]
      alternatives := #[] }
    modes := .new
    scopes := ⟨#[.standard, ⟨some .standard, 1, #[], false⟩]⟩
    labels := ⟨#[]⟩
    interner := .new
    root := ⟨8⟩
    environs := #[] }
  oracle := ModeTable.oracle .new
  config := .default

/-- The second run of `grouped` chooses the second alternative from the recorded list. -/
theorem grouped_selects : ∃ m m₂, Underway grouped (fun _ => False) [.unit ⟨8⟩] m ∧
    m.annotations.chain ⟨8⟩ = some [.unit ⟨2⟩, .unit ⟨5⟩] ∧
    Runs grouped ([.elaborate ⟨8⟩], m.counting) ([.unit ⟨5⟩, .leave 1, .yields .int 0], m₂) := by
  have reads : grouped.program.tree.Reads [⟨2⟩, ⟨3⟩, ⟨6⟩] [.unit ⟨2⟩, .boundary, .unit ⟨5⟩] :=
    .one rfl (.nothing rfl (.inlined rfl (.one rfl (.one rfl .nil)) .nil))
  have again : Underway grouped (fun _ => False) [.unit grouped.program.root]
      ((Session.new grouped none false).run 100).2.machine := .run (.run (.new none false) 100 rfl)
  obtain ⟨e, he, hs, visits⟩ := integer_cases_select rfl reads again
  obtain ⟨m₁, asked, top⟩ : ∃ m₁, Asked grouped ⟨8⟩ ⟨1⟩ ⟨1⟩
      ((Session.new grouped none false).run 100).2.machine.counting m₁ ∧ m₁.stack = #[].push (.int 2) :=
    ⟨_, ⟨_, rfl, @runs_of_completed grouped 20 _ _ _ rfl⟩, rfl⟩
  have reached := (visits _).mpr (.serving asked (.nth (i := 1) (u := ⟨5⟩) top rfl rfl) .refl)
  exact ⟨_, _, again, rfl, reached⟩

end Algol68
