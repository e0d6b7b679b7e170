import Algol68.Proofs.Jump.Landing
import Algol68.Proofs.Memo.Reduced
import Algol68.Proofs.Memo.Twin
import Algol68.Proofs.Run.Halts
import Algol68.Proofs.Scope.Designation
import Algol68.Proofs.Stack.Effect

/-! The run of a session beside one of a machine that knows nothing about nodes. Each step of the
first is matched by steps of the second, which evaluates every closed clause in a frame of its own.
-/

namespace Algol68

open Outline (Along Admits)
open Relation (TransGen)

/-- Two runs end in the same way, one machine mirroring the other. -/
inductive Guide.Ends (g : Guide) : Halt → Halt → Prop where
  | completed {m n : Machine} (h : g.Mirrors m n) : Ends g (.completed m) (.completed n)
  | escaped {s : Signal} {m n : Machine} (h : g.Mirrors m n) :
      Ends g (.escaped s m) (.escaped (g.signal s) n)

variable {job : Job} {units : NodeId → Prop} {g : Guide} {A A' B rest : Agenda}
  {m m' m₁ n n' : Machine} {t : Task} {s s' : Signal}

/-- Each unit that a session evaluates to its end leaves one value if its mode is not `VOID`, and
none if it is. -/
def Job.LeavesValues (job : Job) (units : NodeId → Prop) : Prop :=
  ∀ n rest m m', Underway job units (.unit n :: rest) m → Runs job ([.unit n], m) ([], m') →
    m'.stack.size = m.stack.size + (job.program.tree.mode n).worth

/-- The evaluation of `n` that goes on behind the tasks `X` was begun with `b` values on the stack.
-/
def BegunAt (job : Job) (units : NodeId → Prop) (m : Machine) (X : Agenda) (n : NodeId) (b : Nat) :
    Prop :=
  ∃ m₀ rest, Underway job units (.unit n :: rest) m₀ ∧ m₀.stack.size = b ∧
    Runs job ([.unit n], m₀) (X ++ [.within n], m)

theorem BegunAt.does {X X' : Agenda} {k : NodeId} {b : Nat} (h : BegunAt job units m X k b)
    (hs : Does job (X ++ [.within k], m) (X' ++ [.within k], m')) :
    BegunAt job units m' X' k b := by
  obtain ⟨m₀, rest, hu, hb, hr⟩ := h
  exact ⟨m₀, rest, hu, hb, hr.tail hs⟩

/-! What is on the agenda of a session names the frames of its clauses. -/

theorem LabelledClause.resume_framed {c : LabelledClause} {target : Option NodeId} {work : Agenda}
    (h : c.resume job target = .ok work) : work.Framed := by
  obtain ⟨steps, rfl, hp⟩ := resume_plain h
  exact (Agenda.framed_of_plain hp).append trivial

theorem Does.framed (h : A.Framed) (hs : Does job (A, m) (A', m')) : A'.Framed := by
  cases hs with
  | done he => exact (Exec.wp_ok (Exec.exec_framed _) he).append h.tail
  | resumed he hu =>
    obtain ⟨j, before, c, after, work, rfl, rfl, -, -, hw, rfl, rfl⟩ := unwind_resumed hu
    exact (LabelledClause.resume_framed hw).append (h.tail.of_append (A := before)).tail

theorem Underway.framed (h : Underway job units A m) : A.Framed := by
  induction h with
  | run | resume => trivial
  | step _ hs ih => exact hs.framed ih

/-! A state in which every routine value is known. -/

section

variable {starts : NodeId → Prop} (hw : job.program.WellScoped starts)
  (hj : job.program.JumpsOutward starts)

include hw hj

theorem Scoped.does (h : Scoped job starts (fun _ _ => True) A m)
    (hs : Does job (A, m) (A', m')) : Scoped job starts (fun _ _ => True) A' m' := by
  cases hs with
  | done he => exact h.exec hw hj (fun _ _ h => h) (fun _ _ _ _ _ _ _ _ => trivial) he
  | resumed he hu =>
    obtain ⟨j, before, c, after, work, rfl, rfl, -, -, hwork, rfl, rfl⟩ := unwind_resumed hu
    exact (h.of_error hw hj he).1.resumed hwork

theorem Scoped.runs (h : Scoped job starts (fun _ _ => True) A m)
    (hr : Runs job (A, m) (A', m')) : Scoped job starts (fun _ _ => True) A' m' := by
  generalize hx : (A, m) = x at hr
  generalize hy : (A', m') = y at hr
  induction hr generalizing A' m' with
  | refl =>
    cases hx.trans hy.symm
    exact h
  | @tail y z _ hs ih =>
    obtain ⟨A₁, m₁⟩ := y
    subst hy
    exact (ih rfl).does hw hj hs

end

/-- A state of a session beside a state of a machine that knows nothing about nodes. -/
structure Alongside (job : Job) (units : NodeId → Prop) (g : Guide) (A : Agenda) (m : Machine)
    (B : Agenda) (n : Machine) : Prop where
  underway : Underway job units A m
  state : Scoped job (job.starts units) (fun _ _ => True) B n
  unlearnt : n.annotations.size = 0
  mirrors : g.Mirrors m n
  twin : g.Twin job (BegunAt job units m) m.outline A B

/-- A state is beside what some steps lead to. -/
def Alongside.Next (job : Job) (units : NodeId → Prop) (A : Agenda) (m : Machine) (B : Agenda)
    (n : Machine) : Prop :=
  ∃ g B' n', TransGen (Does job) (B, n) (B', n') ∧ Alongside job units g A m B' n'

namespace Alongside

section

variable (hw : job.program.WellScoped (job.starts units))
  (hj : job.program.JumpsOutward (job.starts units))

include hw hj

theorem exists_scoped (h : Alongside job units g A m B n) :
    ∃ K, Scoped job (job.starts units) K A m := by
  obtain ⟨L, hL⟩ := h.underway.exists_chronicle hw hj
  exact ⟨L.Knows, (hL.recorded hw hj).state⟩

theorem holds (h : Alongside job units g A m B n) :
    A.Holds (Procedure.Issued m.frames.nextSerial) := by
  obtain ⟨K, hK⟩ := h.exists_scoped hw hj
  exact fun t ht v hv => (hK.work t ht v hv).mono fun _ => Callable.issued

theorem abreast (h : Alongside job units g A m B n) : g.Abreast job m n := by
  obtain ⟨K, hK⟩ := h.exists_scoped hw hj
  exact ⟨h.mirrors, hK.values.mono fun _ => Callable.issued, hK.nested, hK.consistent.sound,
    h.state.nested, h.state.consistent.sound⟩

/-- A task that is not a unit evaluated by another one goes alike in both machines. -/
theorem goes (hlimit : job.config.frameLimit = none)
    (h : Alongside job units g (t :: rest) m (g.task t :: B) n)
    (ht : g.Twin job (fun X => BegunAt job units m (t :: X)) (m.outline.pass t) rest B)
    (hunit : ∀ k s, t = .unit k → m.annotations.strategy k = some s → s.source = k) :
    Exec.Goes g (t.exec job) ((g.task t).exec job) m n := by
  obtain ⟨K, hK⟩ := h.exists_scoped hw hj
  have consistent := hK.consistent
  refine Exec.exec_goes hw hj hlimit (h.abreast hw hj) consistent.truthful
    h.state.consistent.truthful
    h.unlearnt hK.placed.1 consistent.along.1 (h.holds hw hj t (List.mem_cons_self ..)) hunit ?_
  rintro node enquiry rfl
  -- the frame of the clause is named behind it, in both agendas
  obtain ⟨k, hk⟩ := Option.isSome_iff_exists.mp h.underway.framed.1
  have left := Agenda.length_of_frame? consistent.along.2 hk
  have right := Agenda.length_of_frame? h.state.consistent.along.2 (ht.frame? hk)
  have left : m.frames.depth = k + 1 := by simpa [Machine.outline, Outline.pass] using left
  have right : n.frames.depth = g.place k + 1 := by
    simpa [Machine.outline, Outline.pass, Guide.task, Task.rename] using right
  rw [left, right]
  rfl

theorem done (h : Alongside job units g (t :: rest) m (g.task t :: B) n)
    (ht : g.Twin job (fun X => BegunAt job units m (t :: X)) (m.outline.pass t) rest B)
    (hgoes : Exec.Goes g (t.exec job) ((g.task t).exec job) m n) {work : Agenda}
    (he : t.exec job m = .ok work m') : Next job units (work ++ rest) m' (g.task t :: B) n := by
  obtain ⟨K, hK⟩ := h.exists_scoped hw hj
  unfold Exec.Goes Exec.Sim at hgoes
  rw [he] at hgoes
  split at hgoes
  · next work' n' hx hy =>
    cases hx
    obtain ⟨g', agrees, hm, rfl⟩ := hgoes
    have hs : Does job (g.task t :: B, n) (work.map g'.task ++ B, n') := .done hy
    have hpass := (hK.consistent.exec he).2.1
    have hlen : m.outline.frames.length = m.frames.depth := by simp [Machine.outline]
    refine ⟨g', _, n', .single hs, .step h.underway (.done he), h.state.does hw hj hs, ?_, hm, ?_⟩
    · exact (Runs.extends (.single hs)).size.trans h.unlearnt
    · refine Guide.Twin.append ?_
      rw [hpass]
      refine (ht.agrees agrees ?_ ?_ ?_).mono fun X k b hb => hb.does ?_
      · rw [← hlen]
        have refers := hK.consistent.along.refers hK.consistent.sound
        exact fun u hu => refers u (List.mem_cons_of_mem _ hu)
      · exact fun u hu => h.holds hw hj u (List.mem_cons_of_mem _ hu)
      · rw [← hlen]
        exact Outline.length_pass_le _ t
      · rw [List.append_assoc]
        exact .done he
  · next hx _ => cases hx
  · exact hgoes.elim

/-- Both machines do nothing but raise a signal, and it passes both agendas alike. -/
theorem raised (h : Alongside job units g (t :: rest) m (g.task t :: B) n)
    (ht : g.Twin job (fun X => BegunAt job units m (t :: X)) (m.outline.pass t) rest B)
    (hgoes : Exec.Goes g (t.exec job) ((g.task t).exec job) m n)
    (he : t.exec job m = .error s m₁) : ∃ n₁, (g.task t).exec job n = .error (g.signal s) n₁ ∧
      g.Passed job (fun X => BegunAt job units m (t :: X)) m₁.outline s rest B m₁ n₁ := by
  obtain ⟨K, hK⟩ := h.exists_scoped hw hj
  unfold Exec.Goes Exec.Sim at hgoes
  rw [he] at hgoes
  split at hgoes
  · next hx _ => cases hx
  · next s' n₁ hx hy =>
    cases hx
    obtain ⟨rfl, hm⟩ := hgoes
    obtain ⟨hc, ho⟩ := hK.consistent.of_error he
    obtain ⟨hstate, -, -⟩ := h.state.of_error hw hj hy
    have still := (hK.consistent.still_of_error he).nextSerial
    refine ⟨n₁, hy, ?_⟩
    rw [Consistent.pass_of_error he, ho] at ht
    refine ht.passed hm hc.sound hc.along (by simp [Machine.outline]) hstate.nested fun j hj => ?_
    subst hj
    -- a jump leads to an activation that was found
    obtain ⟨node, id, f, -, -, rfl, hfind, -, hserial, -⟩ :=
      Exec.exec_jump hK.consistent.sound hK.consistent.along.1 he
    obtain ⟨k, -, hf⟩ := FrameStack.leadsTo_of_findScopeFrom hfind
    rw [← hserial]
    exact hK.consistent.sound.frames_given k f hf
  · exact hgoes.elim

theorem resumed (h : Alongside job units g (t :: rest) m (g.task t :: B) n)
    (ht : g.Twin job (fun X => BegunAt job units m (t :: X)) (m.outline.pass t) rest B)
    (hgoes : Exec.Goes g (t.exec job) ((g.task t).exec job) m n) (he : t.exec job m = .error s m₁)
    (hu : unwind job s rest m₁ = .resumed A' m') : Next job units A' m' (g.task t :: B) n := by
  obtain ⟨K, hK⟩ := h.exists_scoped hw hj
  obtain ⟨hc, ho⟩ := hK.consistent.of_error he
  obtain ⟨n₁, hy, hpassed⟩ := h.raised hw hj ht hgoes he
  cases hpassed with
  | escaped hA => cases hu.symm.trans hA
  | @resumed j before after work B' c n' hs hA hb htakes hwork hB hm htwin =>
    subst hs hA
    rw [unwind_jump_of_takes hb htakes, hwork] at hu
    cases hu
    have left : Does job (t :: (before ++ .labelled c :: after), m)
        (work ++ after, c.caught j (m₁.undo before)) := by
      refine .resumed he ?_
      rw [unwind_jump_of_takes hb htakes, hwork]
    have right : Does job (g.task t :: B, n) (work.map g.task ++ B', n') := .resumed hy hB
    refine ⟨g, _, n', .single right, .step h.underway left, h.state.does hw hj right, ?_, hm, ?_⟩
    · exact (Runs.extends (.single right)).size.trans h.unlearnt
    · refine Guide.Twin.append ?_
      rw [hc.caught, (hc.resume (j := j) hwork).2]
      refine htwin.mono fun X k b hbegun => hbegun.does ?_
      rw [List.append_assoc]
      have taken : unwind job (.jump j) (before ++ .labelled c :: (X ++ [.within k])) m₁ =
          .resumed (work ++ (X ++ [.within k])) (c.caught j (m₁.undo before)) := by
        rw [unwind_jump_of_takes hb htakes, hwork]
      have := Does.resumed he taken
      simpa using this

theorem escaped (h : Alongside job units g (t :: rest) m (g.task t :: B) n)
    (ht : g.Twin job (fun X => BegunAt job units m (t :: X)) (m.outline.pass t) rest B)
    (hgoes : Exec.Goes g (t.exec job) ((g.task t).exec job) m n) (he : t.exec job m = .error s m₁)
    (hu : unwind job s rest m₁ = .escaped s' m') :
    ∃ n', Escapes job (g.task t :: B, n) (g.signal s') n' ∧ g.Mirrors m' n' := by
  obtain ⟨n₁, hy, hpassed⟩ := h.raised hw hj ht hgoes he
  cases hpassed with
  | escaped hA hB hm =>
    cases hu.symm.trans hA
    exact ⟨_, ⟨_, _, _, _, _, .refl, hy, hB⟩, hm⟩
  | resumed hs hA hb htakes hwork =>
    subst hs hA
    rw [unwind_jump_of_takes hb htakes, hwork] at hu
    cases hu

/-- A closed clause was evaluated by its unit: the second machine leaves the frame of the clause. -/
theorem closed (hv : job.LeavesValues units) {k : NodeId} {b d : Nat} {ending : Agenda}
    (h : Alongside job units g (.within k :: rest) m
      (ending ++ .leave d :: .yields (job.program.tree.mode k) b :: .settle k :: B) n)
    (hb : BegunAt job units m [] k b) (hd : ∀ i < m.outline.frames.length, g.place i < d)
    (hending : ending = [] ∨ ending = [.cut b] ∧ job.program.tree.mode k = .void)
    (ht : g.Twin job (fun X => BegunAt job units m (.within k :: X)) m.outline rest B) :
    Next job units rest m
      (ending ++ .leave d :: .yields (job.program.tree.mode k) b :: .settle k :: B) n := by
  have within : (Task.within k).exec job m = .ok [] m := rfl
  have ends (X : Agenda) : Does job (.within k :: X, m) (X, m) := .done within
  have size : n.stack.size = b + (job.program.tree.mode k).worth := by
    obtain ⟨m₀, rest, hu, rfl, hr⟩ := hb
    rw [← hv k rest m₀ m hu (hr.tail (ends []))]
    simp [h.mirrors.stack]
  -- nothing is left to be dropped
  have hcut : Runs job
      (ending ++ .leave d :: .yields (job.program.tree.mode k) b :: .settle k :: B, n)
      (.leave d :: .yields (job.program.tree.mode k) b :: .settle k :: B, n) := by
    rcases hending with rfl | ⟨rfl, hmode⟩
    · exact .refl
    · have same : { n with stack := n.stack.shrink b } = n := by
        rw [hmode, ModeId.worth_void] at size
        rw [← Nat.add_zero b, ← size]
        simp
      have cut : (Task.cut b).exec job n = .ok [] { n with stack := n.stack.shrink b } := rfl
      rw [same] at cut
      exact .single (.done cut)
  have left : (Task.leave d).exec job n = .ok [] { n with frames := n.frames.truncate d } := rfl
  have yields : (Task.yields (job.program.tree.mode k) b).exec job
      { n with frames := n.frames.truncate d } =
        .ok [] { n with frames := n.frames.truncate d } := by
    refine Exec.eq_ok_of_wp ?_
    simp only [Task.exec, Exec.yields, Exec.wp_bind, Exec.wp_depth, size, ModeId.worth]
    split <;> simp
  have settled : (Task.settle k).exec job { n with frames := n.frames.truncate d } = .ok [] { n with
      frames := n.frames.truncate d
      annotations := n.annotations.memoize k (Exec.strategyOf job n.annotations k) } := rfl
  have hruns := TransGen.tail (TransGen.tail (TransGen.tail' hcut (.done left)) (.done yields))
    (.done settled)
  refine ⟨g, _, _, hruns, .step h.underway (ends rest), h.state.runs hw hj hruns.to_reflTransGen,
    ?_, ?_, ht.mono fun X j c hbegun => hbegun.does (ends (X ++ [Task.within j]))⟩
  · exact (Runs.extends hruns.to_reflTransGen).size.trans h.unlearnt
  · exact (h.mirrors.drop h.state.nested (by simpa [Machine.outline] using hd)).of_learnt ..

/-- A closed clause is to be evaluated by its unit: the second machine opens the frame of the
clause. -/
theorem reduced (hlimit : job.config.frameLimit = none) {k : NodeId}
    (h : Alongside job units g (.unit k :: rest) m (.unit k :: B) n)
    (ht : g.Twin job (fun X => BegunAt job units m (.unit k :: X)) m.outline rest B)
    {strategy : Strategy} (hs : m.annotations.strategy k = some strategy)
    (hne : strategy.source ≠ k) :
    ∃ m', (Task.unit k).exec job m = .ok [.unit strategy.source, .within k] m' ∧
      Next job units (.unit strategy.source :: .within k :: rest) m' (.unit k :: B) n := by
  obtain ⟨hkind, -, scope, serial, range, items, hclosed, hserial, hl, hc, hmode⟩ :=
    h.underway.reduced hlimit hs hne
  obtain ⟨kind, inner⟩ := strategy
  obtain rfl : kind = .unit := hkind
  have hne : inner ≠ k := hne
  have hlen : m.outline.frames.length = m.frames.depth := by simp [Machine.outline]
  have abreast := h.abreast hw hj
  have left : (Task.unit k).exec job m = .ok [.unit inner, .within k]
      { m with counters := m.counters.map fun c => { c with units := c.units + 1 } } :=
    Exec.eq_ok_of_wp (by simp [Task.exec, Exec.unit, hs, hne])
  have right : (Task.unit k).exec job n = .ok [.elaborate k, .settle k]
      { n with counters := n.counters.map fun c => { c with units := c.units + 1 } } :=
    Exec.eq_ok_of_wp (by simp [Task.exec, Exec.unit, Exec.strategy_of_size h.unlearnt])
  refine ⟨_, left, ?_⟩
  obtain ⟨table, counted, hrun⟩ := Runs.closed hclosed hserial hl hc hlimit
    (m := { n with counters := n.counters.map fun c => { c with units := c.units + 1 } })
    h.state.consistent.truthful abreast.sound'.depth_pos (.settle k :: B)
  have begun : Does job (.unit k :: B, n) (.elaborate k :: .settle k :: B, _) := .done right
  have hruns := TransGen.trans_left (TransGen.single begun) hrun
  refine ⟨g, _, _, hruns, .step h.underway (.done left), h.state.runs hw hj hruns.to_reflTransGen,
    ?_, ?_, .cons (.unit inner) (.reduced (b := n.stack.size) (d := n.frames.depth) ?_ ?_ ?_ ?_)⟩
  · exact (Runs.extends hruns.to_reflTransGen).size.trans h.unlearnt
  · refine ⟨h.mirrors.stack, h.mirrors.store, h.mirrors.transput, h.mirrors.calls, ?_⟩
    exact h.mirrors.frames.openBetween abreast.sound'.depth_pos ..
  · refine ⟨m, rest, h.underway, abreast.size.symm, .single ?_⟩
    exact .done left
  · intro i hi
    exact h.mirrors.frames.place_lt (hlen ▸ hi)
  · by_cases hv : job.program.tree.mode serial = .void
    · exact .inr ⟨if_pos hv, hmode hv⟩
    · exact .inl (if_neg hv)
  · refine ht.mono fun X j b hbegun => hbegun.does ?_
    exact .done left

variable (hlimit : job.config.frameLimit = none) (hv : job.LeavesValues units)

include hlimit

theorem cases (h : Alongside job units g A m B n) :
    (A = [] ∧ B = []) ∨
    (∃ t rest B', A = t :: rest ∧ B = g.task t :: B' ∧
      g.Twin job (fun X => BegunAt job units m (t :: X)) (m.outline.pass t) rest B' ∧
      Exec.Goes g (t.exec job) ((g.task t).exec job) m n) ∨
    (∃ k rest work m', A = .unit k :: rest ∧ (Task.unit k).exec job m = .ok work m' ∧
      Next job units (work ++ rest) m' B n) ∨
    ∃ k rest, A = .within k :: rest ∧ (job.LeavesValues units → Next job units rest m B n) := by
  have twin := h.twin
  cases twin with
  | nil => exact .inl ⟨rfl, rfl⟩
  | @cons t _ _ rest B' ht =>
    by_cases hred : ∃ k strategy, t = .unit k ∧ m.annotations.strategy k = some strategy ∧
        strategy.source ≠ k
    · obtain ⟨k, strategy, rfl, hk, hne⟩ := hred
      obtain ⟨m', he, hnext⟩ := h.reduced hw hj hlimit ht hk hne
      exact .inr (.inr (.inl ⟨k, rest, _, m', rfl, he, hnext⟩))
    · refine .inr (.inl ⟨t, rest, B', rfl, rfl, ht, h.goes hw hj hlimit ht fun k s hk hs => ?_⟩)
      by_contra hne
      exact hred ⟨k, s, hk, hs, hne⟩
  | @reduced k b d ending _ _ rest B' hb hd he ht =>
    exact .inr (.inr (.inr ⟨k, rest, rfl, fun hv => h.closed hw hj hv hb hd he ht⟩))

include hv

/-- Each step is matched by steps of the second machine. -/
theorem step (h : Alongside job units g A m B n) (hs : Does job (A, m) (A', m')) :
    Next job units A' m' B n := by
  rcases h.cases hw hj hlimit with ⟨rfl, -⟩ | ⟨t, rest, B', rfl, rfl, ht, hgoes⟩ |
    ⟨k, rest, work, m₁, rfl, he, hnext⟩ | ⟨k, rest, rfl, hnext⟩
  · cases hs
  · cases hs with
    | done he => exact h.done hw hj ht hgoes he
    | resumed he hu => exact h.resumed hw hj ht hgoes he hu
  · cases hs.unique (.done he)
    exact hnext
  · have within : (Task.within k).exec job m = .ok [] m := rfl
    cases hs.unique (.done within)
    exact hnext hv

theorem runs (h : Alongside job units g A m B n) (hr : Runs job (A, m) (A', m')) :
    ∃ g' B' n', Runs job (B, n) (B', n') ∧ Alongside job units g' A' m' B' n' := by
  generalize hx : (A, m) = x at hr
  generalize hy : (A', m') = y at hr
  induction hr generalizing A' m' with
  | refl =>
    cases hx.trans hy.symm
    exact ⟨g, B, n, .refl, h⟩
  | @tail y z _ hs ih =>
    obtain ⟨A₁, m₁⟩ := y
    subst hy
    obtain ⟨g₁, B₁, n₁, hr₁, h₁⟩ := ih rfl
    obtain ⟨g', B', n', hr', h'⟩ := h₁.step hw hj hlimit hv hs
    exact ⟨g', B', n', hr₁.trans hr'.to_reflTransGen, h'⟩

/-- Where the run of the session ends, the second machine ends in the same way. -/
theorem halts (h : Alongside job units g A m B n) {e : Halt} (he : Halts job (A, m) e) :
    ∃ (g : Guide) (e' : Halt), Halts job (B, n) e' ∧ g.Ends e e' := by
  cases he with
  | completed hr =>
    obtain ⟨g', B', n', hr', h'⟩ := h.runs hw hj hlimit hv hr
    obtain ⟨hm, htwin⟩ := And.intro h'.mirrors h'.twin
    cases htwin
    exact ⟨g', _, .completed hr', .completed hm⟩
  | escaped he =>
    obtain ⟨t, rest, m₀, m₁, s₀, hr, he, hu⟩ := he
    obtain ⟨g', B₀, n₀, hr', h'⟩ := h.runs hw hj hlimit hv hr
    rcases h'.cases hw hj hlimit with ⟨hnil, -⟩ | ⟨t, rest, B', hA, rfl, ht, hgoes⟩ |
      ⟨k, rest, work, m₂, hA, hx, -⟩ | ⟨k, rest, hA, -⟩
    · cases hnil
    · cases hA
      obtain ⟨n', hesc, hm⟩ := h'.escaped hw hj ht hgoes he hu
      exact ⟨g', _, .escaped (.of_runs hr' hesc), .escaped hm⟩
    · cases hA
      cases hx.symm.trans he
    · cases hA
      cases he

/-- Where the second machine ends its run, so does the session: it does not go on without steps of
the second machine. -/
theorem halts_of (h : Alongside job units g A m B n) {e : Halt} (he : Halts job (B, n) e) :
    ∃ e', Halts job (A, m) e' := by
  have acc := he.acc.transGen
  generalize hy : (B, n) = y at acc
  clear he
  induction acc generalizing g A m B n with
  | intro y _ ih =>
    subst hy
    by_cases hfinal : Final job (A, m)
    · exact hfinal.halts
    · obtain ⟨⟨A', m'⟩, hs⟩ : ∃ x, Does job (A, m) x := by
        by_contra hnone
        exact hfinal fun x hx => hnone ⟨x, hx⟩
      obtain ⟨g', B', n', hr, h'⟩ := h.step hw hj hlimit hv hs
      obtain ⟨e', he'⟩ := ih (B', n') (Relation.transGen_swap.mp hr) h' rfl
      exact ⟨e', he'.of_does hs⟩

end

end Alongside

end Algol68
