import Algol68.Proofs.Loop.Counter
import Algol68.Proofs.Stack.Balance

/-! How often a loop runs. Which iterations are entered, what they see of the counter and what comes after
them is settled by the start, the step and the limit, and by how the parts of the loop ended so far. -/

namespace Algol68

variable {job : Job} {units : NodeId → Prop}

namespace Iteration

variable {i : Iteration} {k : Nat} {m m' m₁ m₂ : Machine}

/-- Iteration `k` is entered, in machine `m'`: the run comes to its bound test and passes it. -/
def Enters (job : Job) (i : Iteration) (m : Machine) (k : Nat) (m' : Machine) : Prop :=
  ∃ j, Arrives job i m k j m' ∧ j.admits

/-- How many counters, from the first on, are inside the bounds of a loop with a step. -/
def rounds (i : Iteration) : Nat :=
  ((i.limit.toInt - i.counter.toInt).fdiv i.step.toInt + 1).toNat

/-- The body completes in every iteration that is entered and begins. -/
def BodyCompletes (job : Job) (i : Iteration) (m : Machine) : Prop :=
  ∀ k m₁ m₂, Enters job i m k m₁ → Exec.begin job (i.nth k) m₁ = .ok () m₂ →
    ∃ m₃, Runs job ([.clause i.parts.doPart false], m₂) ([], m₃)

theorem enters_iff : Enters job i m k m' ↔ Through job i m k m' ∧ i.Within (i.count k) := by
  constructor
  · rintro ⟨j, arrives, hj⟩
    obtain ⟨through, rfl⟩ := arrives_iff.mp arrives
    exact ⟨through, (nth_admits_iff through.fits).mp hj⟩
  · rintro ⟨through, within⟩
    exact ⟨i.nth k, arrives_iff.mpr ⟨through, rfl⟩, (nth_admits_iff through.fits).mpr within⟩

/-! Counters inside the bounds. -/

theorem step_toInt_ne_zero (h : i.step ≠ 0) : i.step.toInt ≠ 0 := by
  intro hz
  exact h (Int64.toInt_inj.mp (hz.trans Int64.toInt_zero.symm))

theorem within_count_iff (hs : i.parts.steps) (hz : i.step ≠ 0) (k : Nat) :
    i.Within (i.count k) ↔ k < i.rounds := by
  rw [rounds, Int.lt_toNat, Int.lt_add_one_iff, Within, count, if_pos hs]
  rcases Int.lt_or_gt_of_ne (step_toInt_ne_zero hz) with down | up
  · have quotient : (i.limit.toInt - i.counter.toInt).fdiv i.step.toInt =
        (i.counter.toInt - i.limit.toInt) / -i.step.toInt := by
      rw [← Int.neg_fdiv_neg, Int.neg_sub, Int.fdiv_eq_ediv_of_nonneg _ (by omega)]
    rw [quotient, Int.le_ediv_iff_mul_le (by omega), Int.mul_neg]
    omega
  · rw [Int.fdiv_eq_ediv_of_nonneg _ (by omega), Int.le_ediv_iff_mul_le up]
    omega

/-- The counters inside the bounds lie between the first and the limit. -/
theorem fits_of_within (hs : i.parts.steps) (hz : i.step ≠ 0) (h : i.Within (i.count k)) :
    FitsWord (i.count k) := by
  have counter := fitsWord_toInt i.counter
  have limit := fitsWord_toInt i.limit
  have eq : i.count k = i.counter.toInt + k * i.step.toInt := by
    rw [count, if_pos hs]
  rcases Int.lt_or_gt_of_ne (step_toInt_ne_zero hz) with down | up
  · have fall : k * i.step.toInt ≤ 0 := Int.mul_nonpos_of_nonneg_of_nonpos (by omega) (by omega)
    exact limit.between counter (h.2 down) (by omega)
  · have rise : 0 ≤ k * i.step.toInt := Int.mul_nonneg (by omega) (by omega)
    exact counter.between limit (by omega) (h.1 up)

/-- If every iteration that is entered runs through, the run comes to all bound tests up to the first
that fails, unless its counter overflows. -/
theorem exists_through (hs : i.parts.steps) (hz : i.step ≠ 0)
    (hround : ∀ k m', Enters job i m k m' → ∃ m'', Round job (i.nth k) m' m'')
    (hk : k ≤ i.rounds) (fits : FitsWord (i.count k)) : ∃ m', Through job i m k m' := by
  induction k with
  | zero => exact ⟨m, .start⟩
  | succ k ih =>
    have within := (within_count_iff hs hz k).mpr hk
    obtain ⟨m₁, through⟩ := ih (Nat.le_of_succ_le hk) (fits_of_within hs hz within)
    obtain ⟨m₂, round⟩ := hround k m₁ (enters_iff.mpr ⟨through, within⟩)
    exact ⟨m₂, .next through within round fits⟩

/-- Without a `while` part the body completed in every iteration before a bound test. -/
theorem Through.ran {j : Nat} {m₃ : Machine} (h : Through job i m k m') (hw : i.parts.whilePart = none)
    (hj : j < k) (hm : Through job i m j m₂) (begins : Exec.begin job (i.nth j) m₂ = .ok () m₃) :
    ∃ m₄, Runs job ([.clause i.parts.doPart false], m₃) ([], m₄) := by
  obtain ⟨m₁, _, before, begins', asked, ran, -⟩ := h.exists_round hj
  obtain rfl := hm.unique before
  cases begins.symm.trans begins'
  have asked : GoesOn job true i.parts.whilePart m₃ _ := asked
  rw [hw] at asked
  obtain rfl := asked
  exact ⟨_, ran⟩

end Iteration

/-- Where modes agree, what is elaborated passes the check of the stack behind it. -/
theorem Runs.passes_check {m m' : Machine} {n : NodeId} {rest : Agenda} (hv : job.VoidConsistent units)
    (hu : Underway job units (.elaborate n :: rest) m)
    (hr : Runs job ([.elaborate n], m) ([.yields (job.program.tree.mode n) m.stack.size], m')) :
    Runs job ([.elaborate n], m) ([], m') := by
  have start : Upon job.program.tree m.stack.toList
      (m.stack.size + (job.program.tree.mode n).worth) [.elaborate n] m :=
    ⟨List.prefix_refl _, .cons (by simp) trivial ⟨Nat.le_of_eq (by simp [Task.uses]), rfl⟩ .refl, by simp⟩
  obtain ⟨-, balanced, -⟩ := start.runs (B := rest) hv hu hr
  obtain ⟨-, _, ⟨-, size, -⟩, -⟩ := (Agenda.Balanced.cons_iff (by simp)).mp balanced
  have expected : m'.stack.size = if job.program.tree.mode n = .void then m.stack.size
      else m.stack.size + 1 := by
    rw [size]
    split
    · next hmode => rw [hmode, ModeId.worth_void, Nat.add_zero]
    · next hmode => rw [ModeId.worth_of_ne hmode]
  refine hr.tail (does_single_iff.mpr (Exec.eq_ok_of_wp ?_))
  simp [Task.exec, Exec.yields, expected]

/-- The counting law of the loop `n`, begun in machine `m`, whose first bound test is made in `m₁` and is
that of `i`. -/
structure Iteration.Counts (job : Job) (units : NodeId → Prop) (n : NodeId) (m : Machine)
    (i : Iteration) (m₁ : Machine) : Prop where
  /-- An iteration is entered just when all before it were inside the bounds and ran through, no counter
  overflowed, and its own is inside the bounds. -/
  entered (k : Nat) (m₂ : Machine) :
    Enters job i m₁ k m₂ ↔ Through job i m₁ k m₂ ∧ i.Within (i.count k)
  /-- An iteration that is entered begins and sees its counter, if this is found outside of the body. -/
  seen (hc : i.FindsCounter m₁.frames) {k : Nat} {m₂ : Machine} (h : Enters job i m₁ k m₂) :
    ∃ m₃, Does job ([.iterate (i.nth k)], m₂) ((i.nth k).begun.opening, m₃) ∧
      ∀ slot, i.parts.counter = some slot →
        ∃ c : Int64, m₃.frames.load slot = .ok (.int c) ∧ c.toInt = i.count k
  /-- After an iteration that ran through the counter overflows, or else the next bound test is made. -/
  stepped {k : Nat} {m₂ m₃ : Machine} (h : Enters job i m₁ k m₂) (round : Round job (i.nth k) m₂ m₃) :
    if i.parts.steps ∧ ¬ FitsWord (i.count k + i.step.toInt) then
      Escapes job ([.elaborate n], m) (.fault (.of (.integerOverflow "loop counter")))
        { m₃ with frames := m₃.frames.truncate (i.body - 1) }
    else Arrives job i m₁ (k + 1) (i.nth (k + 1)) m₃
  /-- The loop completes where an iteration ends it. -/
  completed {k : Nat} {m₂ m₃ : Machine} (h : Through job i m₁ k m₂)
      (ends : Ends job (i.nth k) m₂ m₃) :
    Runs job ([.elaborate n], m) ([.yields (job.program.tree.mode n) m.stack.size],
      { m₃ with frames := m₃.frames.truncate (i.body - 1) })
  /-- A loop with a step and without a `while` or `until` part, whose body always completes, is run for
  the counters inside the bounds, and then completes or overflows. Where modes agree, it passes the check
  of the stack behind it when it completes. -/
  counted (hc : i.FindsCounter m₁.frames) (hs : i.parts.steps) (hz : i.step ≠ 0)
      (hw : i.parts.whilePart = none) (hu : i.parts.untilPart = none)
      (completes : i.BodyCompletes job m₁) :
    (∀ k, (∃ m₂, Enters job i m₁ k m₂) ↔ k < i.rounds) ∧
      if FitsWord (i.count i.rounds) then
        ∃ m₂, Runs job ([.elaborate n], m) ([.yields (job.program.tree.mode n) m.stack.size], m₂) ∧
          (job.VoidConsistent units → Runs job ([.elaborate n], m) ([], m₂))
      else ∃ m₂, Escapes job ([.elaborate n], m) (.fault (.of (.integerOverflow "loop counter"))) m₂

namespace LoopParts

variable {n : NodeId} {id : LoopId} {rest : Agenda} {m m₁ m₂ m₃ : Machine} {i : Iteration} {k : Nat}

/-- A counter that is a local of the range of the loop is found there. -/
theorem Entered.findsCounter (h : Entered job (job.program.tree.loopParts id) m i m₁)
    (hc : (job.program.tree.loopParts id).HasCounter job.program) : i.FindsCounter m₁.frames := by
  obtain ⟨m₂, m₃, loops⟩ := h.loops
  intro slot hslot
  rw [h.parts_eq] at hslot
  obtain ⟨level, inside, offset⟩ := hc slot hslot
  have pos := loops.pos
  refine ⟨i.body - 1, (loops.holder_eq_ok_iff level.symm (Nat.ne_of_gt inside) .void).mpr
    ⟨rfl, inside, ?_⟩, by omega⟩
  rw [loops.outerSize, h.parts_eq]
  exact offset

theorem Entered.begins (hu : Underway job units (.elaborate n :: rest) m)
    (hk : job.program.tree.kind n = .loop id)
    (h : Entered job (job.program.tree.loopParts id) m i m₁) (hc : i.FindsCounter m₁.frames)
    (ht : i.Through job m₁ k m₂) : ∃ m₃, Exec.begin job (i.nth k) m₂ = .ok () m₃ ∧
      ∀ slot, i.parts.counter = some slot → m₃.frames.load slot = .ok (.int (i.nth k).counter) := by
  have outline := h.outline hu hk (Iteration.arrives_iff.mpr ⟨ht, rfl⟩).runs
  exact (hc.of_hollow (congrArg Outline.frames outline) rfl rfl : (i.nth k).FindsCounter _).begins

/-- After an iteration that ran through comes the next bound test, unless the counter overflows. -/
theorem Entered.stepped (hk : job.program.tree.kind n = .loop id)
    (h : Entered job (job.program.tree.loopParts id) m i m₁) (he : i.Enters job m₁ k m₂)
    (round : (i.nth k).Round job m₂ m₃) :
    if i.parts.steps ∧ ¬ FitsWord (i.count k + i.step.toInt) then
      Escapes job ([.elaborate n], m) (.fault (.of (.integerOverflow "loop counter")))
        { m₃ with frames := m₃.frames.truncate (i.body - 1) }
    else i.Arrives job m₁ (k + 1) (i.nth (k + 1)) m₃ := by
  obtain ⟨through, within⟩ := Iteration.enters_iff.mp he
  have admits := (Iteration.nth_admits_iff through.fits).mpr within
  split
  · next past =>
    obtain ⟨hs, past⟩ := past
    rw [← Iteration.count_succ hs] at past
    have none := Iteration.next?_nth_eq_none through.fits past
    have tests := (Iteration.arrives_iff.mpr ⟨through, rfl⟩).runs
    exact h.escapes hk (.of_runs tests (round.overflows admits none))
  · next fits =>
    have fits : FitsWord (i.count (k + 1)) := by
      by_cases hs : i.parts.steps
      · rw [Iteration.count_succ hs]
        by_contra past
        exact fits ⟨hs, past⟩
      · rw [Iteration.count_of_not_steps hs]
        exact fitsWord_toInt _
    exact Iteration.arrives_iff.mpr ⟨.next through within round fits, rfl⟩

/-- A loop without a `while` or `until` part whose body completes runs through. -/
theorem Entered.rounds_of_completes (hu : Underway job units (.elaborate n :: rest) m)
    (hk : job.program.tree.kind n = .loop id)
    (h : Entered job (job.program.tree.loopParts id) m i m₁) (hc : i.FindsCounter m₁.frames)
    (hw : i.parts.whilePart = none) (hun : i.parts.untilPart = none)
    (completes : i.BodyCompletes job m₁)
    (he : i.Enters job m₁ k m₂) : ∃ m₃, (i.nth k).Round job m₂ m₃ := by
  obtain ⟨m₃, begins, -⟩ := h.begins hu hk hc (Iteration.enters_iff.mp he).1
  obtain ⟨m₄, ran⟩ := completes k m₂ m₃ he begins
  have asked : GoesOn job true i.parts.whilePart m₃ m₃ := by
    rw [hw]
    rfl
  have untold : GoesOn job false i.parts.untilPart m₄ m₄ := by
    rw [hun]
    rfl
  exact ⟨m₄, .intro begins asked ran untold⟩

theorem Entered.counted (hu : Underway job units (.elaborate n :: rest) m)
    (hk : job.program.tree.kind n = .loop id)
    (h : Entered job (job.program.tree.loopParts id) m i m₁) (hc : i.FindsCounter m₁.frames)
    (hs : i.parts.steps) (hz : i.step ≠ 0)
    (hw : i.parts.whilePart = none) (hun : i.parts.untilPart = none)
    (completes : i.BodyCompletes job m₁) :
    (∀ k, (∃ m₂, i.Enters job m₁ k m₂) ↔ k < i.rounds) ∧
      if FitsWord (i.count i.rounds) then
        ∃ m₂, Runs job ([.elaborate n], m) ([.yields (job.program.tree.mode n) m.stack.size], m₂) ∧
          (job.VoidConsistent units → Runs job ([.elaborate n], m) ([], m₂))
      else ∃ m₂, Escapes job ([.elaborate n], m) (.fault (.of (.integerOverflow "loop counter"))) m₂ := by
  have rounds (k : Nat) (m₂ : Machine) (he : i.Enters job m₁ k m₂) :=
    h.rounds_of_completes hu hk hc hw hun completes he
  have enters (k : Nat) : (∃ m₂, i.Enters job m₁ k m₂) ↔ k < i.rounds := by
    constructor
    · rintro ⟨m₂, he⟩
      exact (Iteration.within_count_iff hs hz k).mp (Iteration.enters_iff.mp he).2
    · intro hlt
      have within := (Iteration.within_count_iff hs hz k).mpr hlt
      obtain ⟨m₂, through⟩ := Iteration.exists_through hs hz rounds (Nat.le_of_lt hlt)
        (Iteration.fits_of_within hs hz within)
      exact ⟨m₂, Iteration.enters_iff.mpr ⟨through, within⟩⟩
  refine ⟨enters, ?_⟩
  split
  · next fits =>
    obtain ⟨m₂, through⟩ := Iteration.exists_through hs hz rounds (Nat.le_refl _) fits
    have outside : (i.nth i.rounds).admits = false := by
      by_contra hadmits
      have within := (Iteration.nth_admits_iff fits).mp (Bool.not_eq_false _ ▸ hadmits)
      exact Nat.lt_irrefl _ ((Iteration.within_count_iff hs hz _).mp within)
    have completes := h.completes hk (Iteration.completes_iff.mpr ⟨_, m₂, through, .outside outside⟩)
    exact ⟨_, completes, fun hv => completes.passes_check hv hu⟩
  · next past =>
    -- the counter that overflows is not the first, so it is that after the last iteration
    obtain ⟨k, hlast⟩ : ∃ k, i.rounds = k + 1 := by
      refine Nat.exists_eq_succ_of_ne_zero fun hzero => past ?_
      rw [hzero, Iteration.count_zero]
      exact fitsWord_toInt _
    obtain ⟨m₂, he⟩ := (enters k).mpr (by omega)
    obtain ⟨m₃, round⟩ := rounds k m₂ he
    have stepped := h.stepped hk he round
    rw [hlast, Iteration.count_succ hs] at past
    rw [if_pos ⟨hs, past⟩] at stepped
    exact ⟨_, stepped⟩

theorem Entered.counts (hu : Underway job units (.elaborate n :: rest) m)
    (hk : job.program.tree.kind n = .loop id)
    (h : Entered job (job.program.tree.loopParts id) m i m₁) : i.Counts job units n m m₁ := by
  constructor
  · exact fun k m₂ => Iteration.enters_iff
  · intro hc k m₂ he
    obtain ⟨through, within⟩ := Iteration.enters_iff.mp he
    obtain ⟨m₃, begins, loads⟩ := h.begins hu hk hc through
    have admits := (Iteration.nth_admits_iff through.fits).mpr within
    refine ⟨m₃, does_single_iff.mpr ?_, fun slot hslot =>
      ⟨(i.nth k).counter, loads slot hslot, through.fits.toInt_ofInt⟩⟩
    rw [Iteration.exec_iterate, if_pos admits, begins]
  · exact fun he round => h.stepped hk he round
  · intro k m₂ m₃ ht ends
    exact h.completes hk (Iteration.completes_iff.mpr ⟨k, m₂, ht, ends⟩)
  · intro hc hs hz hw hun completes
    exact h.counted hu hk hc hs hz hw hun completes

end LoopParts

namespace LoopParts

variable {n : NodeId} {id : LoopId} {m m₁ m' : Machine} {i j : Iteration}

/-- A bound test of an entered loop is that of one of its iterations. -/
theorem Entered.exists_through (h : Entered job (job.program.tree.loopParts id) m i m₁)
    (hk : job.program.tree.kind n = .loop id)
    (hr : Runs job ([.elaborate n], m) (.iterate j :: .leave j.body :: .leave (j.body - 1) ::
      [.yields (job.program.tree.mode n) m.stack.size], m')) :
    ∃ k, i.Through job m₁ k m' ∧ j = i.nth k := by
  obtain ⟨i', m₁', entered, tests⟩ := (runs_loop_iff hk).mp hr
  obtain ⟨rfl, rfl⟩ := h.unique entered
  obtain ⟨k, arrives⟩ := Iteration.runs_iterate_iff.mp tests
  exact ⟨k, Iteration.arrives_iff.mp arrives⟩

/-- The loop is entered with the first of its iterations. -/
theorem entered_of_first (hk : job.program.tree.kind n = .loop id)
    (hr : Runs job ([.elaborate n], m) (.iterate j :: .leave j.body :: .leave (j.body - 1) ::
      [.yields (job.program.tree.mode n) m.stack.size], m')) (hj : j.first) :
    Entered job (job.program.tree.loopParts id) m j m' := by
  obtain ⟨i, m₁, entered, -⟩ := (runs_loop_iff hk).mp hr
  obtain ⟨k, through, rfl⟩ := entered.exists_through hk hr
  obtain rfl : k = 0 := by
    have first : (i.first && k == 0) = true := hj
    simpa using (Bool.and_eq_true_iff.mp first).2
  obtain rfl := through.unique .start
  rwa [Iteration.nth_zero]

end LoopParts

/-- The counting law of loops. The start, the step and the limit are evaluated inside the frames around
the loop. Bound tests are made just when these have been found and the frames of the loop opened, and each
belongs to some iteration. From there on the counting law holds, and where the modes of the program
agree, a loop that completes passes the check of the stack behind it. -/
theorem loops_count {m : Machine} {n : NodeId} {id : LoopId} {rest : Agenda}
    (hu : Underway job units (.elaborate n :: rest) m) (hk : job.program.tree.kind n = .loop id) :
    (∀ unit g m', Runs job ([.elaborate n], m)
      ([.unit unit, .take g, .yields (job.program.tree.mode n) m.stack.size], m') →
      m'.outline = m.outline) ∧
    (∀ j m', Runs job ([.elaborate n], m) (.iterate j :: .leave j.body :: .leave (j.body - 1) ::
      [.yields (job.program.tree.mode n) m.stack.size], m') ↔
      ∃ i m₁ k, LoopParts.Entered job (job.program.tree.loopParts id) m i m₁ ∧ i.Arrives job m₁ k j m') ∧
    (∀ i m₁, LoopParts.Entered job (job.program.tree.loopParts id) m i m₁ → i.Counts job units n m m₁) ∧
    (job.VoidConsistent units → ∀ m', Runs job ([.elaborate n], m)
      ([.yields (job.program.tree.mode n) m.stack.size], m') → Runs job ([.elaborate n], m) ([], m')) := by
  refine ⟨fun unit g m' hr => ?_, fun j m' => ?_, fun i m₁ h => h.counts hu hk,
    fun hv m' hr => hr.passes_check hv hu⟩
  · have consistent : Consistent job ([.elaborate n] ++ rest) m := hu.consistent.1
    exact (consistent.of_append.runs hr).2.1
  · refine (LoopParts.runs_loop_iff hk).trans ?_
    simp only [Iteration.runs_iterate_iff, exists_and_left]

theorem twice_voidConsistent : twice.VoidConsistent (fun _ => False) :=
  Program.CallFree.voidConsistent (.of_size (by decide)) (.of_agrees (by decide))

/-- The loop of `twice` has two iterations, and then it completes. -/
theorem twice_counts : ∃ rest m i m₁, Underway twice (fun _ => False) (.elaborate ⟨8⟩ :: rest) m ∧
    LoopParts.Entered twice (twice.program.tree.loopParts ⟨0⟩) m i m₁ ∧
    (∀ k, (∃ m₂, i.Enters twice m₁ k m₂) ↔ k < 2) ∧
    ∃ m₂, Runs twice ([.elaborate ⟨8⟩], m) ([], m₂) := by
  obtain ⟨rest, m, hd, i, m₁, hd₁, first, start, step, limit, j, m₂, hd₂, counter⟩ : ∃ rest m,
      drive twice 1 [.unit twice.program.root] (Session.new twice none false).machine =
        .unfinished (.elaborate ⟨8⟩ :: rest) m ∧
      ∃ i m', drive twice 7 [.elaborate ⟨8⟩] m = .unfinished (.iterate i :: .leave i.body ::
        .leave (i.body - 1) :: [.yields (twice.program.tree.mode ⟨8⟩) m.stack.size]) m' ∧
      i.first = true ∧ i.counter.toInt = 1 ∧ i.step.toInt = 1 ∧ i.limit.toInt = 2 ∧
      ∃ j m', drive twice 43 [.elaborate ⟨8⟩] m = .unfinished (.iterate j :: .leave j.body ::
        .leave (j.body - 1) :: [.yields (twice.program.tree.mode ⟨8⟩) m.stack.size]) m' ∧
      j.counter.toInt = 3 := by
    refine ⟨_, _, rfl, _, _, by with_unfolding_all rfl, ?_, ?_, ?_, ?_, _, _,
      by with_unfolding_all rfl, ?_⟩ <;> with_unfolding_all rfl
  have hu : Underway twice (fun _ => False) (.elaborate ⟨8⟩ :: rest) m :=
    .runs (.run (.new none false)) (runs_of_unfinished hd)
  have entered := LoopParts.entered_of_first rfl (runs_of_unfinished hd₁) first
  obtain ⟨k, through, rfl⟩ := entered.exists_through rfl (runs_of_unfinished hd₂)
  have parts := entered.parts_eq
  have hs : i.parts.steps = true := by
    rw [parts]
    rfl
  have hw : i.parts.whilePart = none := by
    rw [parts]
    rfl
  have hun : i.parts.untilPart = none := by
    rw [parts]
    rfl
  have hz : i.step ≠ 0 := by
    intro hz
    rw [hz] at step
    cases step
  obtain rfl : k = 2 := by
    have counter : i.count k = 3 := through.fits.toInt_ofInt.symm.trans counter
    rw [Iteration.count, if_pos hs, start, step] at counter
    omega
  have rounds : i.rounds = 2 := by
    rw [Iteration.rounds, limit, start, step]
    rfl
  have completes : i.BodyCompletes twice m₁ := by
    intro k m₃ m₄ he begins
    obtain ⟨through', within⟩ := Iteration.enters_iff.mp he
    have inside := (Iteration.within_count_iff hs hz k).mp within
    rw [rounds] at inside
    exact through.ran hw inside through' begins
  have counted := ((loops_count hu rfl).2.2.1 i m₁ entered).counted
    (entered.findsCounter twice_hasCounter) hs hz hw hun completes
  rw [rounds, if_pos through.fits] at counted
  obtain ⟨enters, m₃, -, passes⟩ := counted
  exact ⟨rest, m, i, m₁, hu, entered, enters, m₃, passes twice_voidConsistent⟩

/-- A loop whose range is range 1 and whose body, in range 2, has a local `i`. The body is a print call
`print (i)` or the denotation `5`. -/
def tallied (counter : Option Slot) (limit : Int64) (body : NodeId) : Job where
  program := {
    tree := {
      nodes := #[⟨.standard .print, ⟨7⟩, .dummy⟩, ⟨.identifier ⟨2, 0⟩, .int, .dummy⟩,
        ⟨.call ⟨0⟩ ⟨0, 1⟩, .void, .dummy⟩, ⟨.literal (.int 5), .int, .dummy⟩,
        ⟨.literal (.int limit), .int, .dummy⟩, ⟨.loop ⟨0⟩, .void, .dummy⟩]
      lists := #[⟨1⟩]
      modeLists := #[]
      loops := #[⟨⟨1⟩, ⟨2⟩, counter, none, none, some ⟨4⟩, none, body, none⟩]
      alternatives := #[] }
    modes := ⟨Mode.primitives.push (.proc [.int] .void)⟩
    scopes := ⟨#[.standard, ⟨some .standard, 1, #[], false⟩, ⟨some ⟨1⟩, 2, #[.int], false⟩]⟩
    labels := .new
    interner := .new
    root := ⟨5⟩
    environs := #[] }
  oracle := ModeTable.oracle ⟨Mode.primitives.push (.proc [.int] .void)⟩
  config := .default

/-- The program `FOR i TO 2 DO print (i) OD`, its counter a local of the body. -/
def shadowing : Job := tallied (some ⟨2, 0⟩) 2 ⟨2⟩

/-- The program `TO 1 DO 5 OD`. -/
def littering : Job := tallied none 1 ⟨3⟩

theorem shadowing_forgets : ∃ rest m i m₁ m₂ m₃,
    Underway shadowing (fun _ => False) (.elaborate ⟨5⟩ :: rest) m ∧
    LoopParts.Entered shadowing (shadowing.program.tree.loopParts ⟨0⟩) m i m₁ ∧
    i.Enters shadowing m₁ 1 m₂ ∧
    Does shadowing ([.iterate (i.nth 1)], m₂) ((i.nth 1).begun.opening, m₃) ∧
    i.parts.counter = some ⟨2, 0⟩ ∧ i.count 1 = 2 ∧
    m₃.frames.load ⟨2, 0⟩ = .ok (.undefined .int) := by
  obtain ⟨rest, m, hd, i, m₁, hd₁, first, start, step, steps, j, m₂, hd₂, admits, counter, m₃, begins,
      loads⟩ : ∃ rest m,
      drive shadowing 1 [.unit ⟨5⟩] (Session.new shadowing none false).machine =
        .unfinished (.elaborate ⟨5⟩ :: rest) m ∧
      ∃ i m', drive shadowing 7 [.elaborate ⟨5⟩] m = .unfinished (.iterate i :: .leave i.body ::
        .leave (i.body - 1) :: [.yields .void m.stack.size]) m' ∧
      i.first = true ∧ i.counter.toInt = 1 ∧ i.step.toInt = 1 ∧ i.parts.steps = true ∧
      ∃ j m', drive shadowing 23 [.elaborate ⟨5⟩] m = .unfinished (.iterate j :: .leave j.body ::
        .leave (j.body - 1) :: [.yields .void m.stack.size]) m' ∧
      j.admits = true ∧ j.counter.toInt = 2 ∧
      ∃ m₃, (Task.iterate j).exec shadowing m' = .ok j.begun.opening m₃ ∧
        m₃.frames.load ⟨2, 0⟩ = .ok (.undefined .int) := by
    refine ⟨_, _, rfl, _, _, by with_unfolding_all rfl, ?_, ?_, ?_, ?_, _, _,
      by with_unfolding_all rfl, ?_, ?_, _, by with_unfolding_all rfl, ?_⟩ <;> with_unfolding_all rfl
  have entered := LoopParts.entered_of_first rfl (runs_of_unfinished hd₁) first
  obtain ⟨k, through, rfl⟩ := entered.exists_through rfl (runs_of_unfinished hd₂)
  have counter : i.count k = 2 := through.fits.toInt_ofInt.symm.trans counter
  obtain rfl : k = 1 := by
    rw [Iteration.count, if_pos steps, start, step] at counter
    omega
  exact ⟨rest, m, i, m₁, m₂, m₃, .runs (.run (.new none false)) (runs_of_unfinished hd), entered,
    ⟨_, Iteration.arrives_iff.mpr ⟨through, rfl⟩, admits⟩, does_single_iff.mpr begins,
    by rw [entered.parts_eq]; rfl, counter, loads⟩

theorem littering_fails : ∃ rest m i m₁ m₂,
    Underway littering (fun _ => False) (.elaborate ⟨5⟩ :: rest) m ∧
    LoopParts.Entered littering (littering.program.tree.loopParts ⟨0⟩) m i m₁ ∧
    i.parts.counter = none ∧ i.parts.steps ∧ 0 < i.step ∧ i.parts.whilePart = none ∧
    i.parts.untilPart = none ∧ i.BodyCompletes littering m₁ ∧ FitsWord (i.count i.rounds) ∧
    Escapes littering ([.elaborate ⟨5⟩], m) (.fault (.of (.stackImbalance 0 1))) m₂ := by
  obtain ⟨rest, m, hd, i, m₁, hd₁, first, start, step, limit, steps, up, m₂, begins, m₃, ran, m₄, fails⟩ :
      ∃ rest m, drive littering 1 [.unit ⟨5⟩] (Session.new littering none false).machine =
        .unfinished (.elaborate ⟨5⟩ :: rest) m ∧
      ∃ i m', drive littering 7 [.elaborate ⟨5⟩] m = .unfinished (.iterate i :: .leave i.body ::
        .leave (i.body - 1) :: [.yields .void m.stack.size]) m' ∧
      i.first = true ∧ i.counter.toInt = 1 ∧ i.step.toInt = 1 ∧ i.limit.toInt = 1 ∧
      i.parts.steps = true ∧ 0 < i.step ∧
      ∃ m₂, Exec.begin littering i m' = .ok () m₂ ∧
      ∃ m₃, drive littering 4 [.clause ⟨3⟩ false] m₂ = .completed m₃ ∧
      ∃ m₄, drive littering 17 [.elaborate ⟨5⟩] m =
        .escaped (.fault (.of (.stackImbalance 0 1))) m₄ := by
    refine ⟨_, _, rfl, _, _, by with_unfolding_all rfl, ?_, ?_, ?_, ?_, ?_, by decide, _,
      by with_unfolding_all rfl, _, by with_unfolding_all rfl, _, by with_unfolding_all rfl⟩ <;>
      with_unfolding_all rfl
  have entered := LoopParts.entered_of_first rfl (runs_of_unfinished hd₁) first
  have parts := entered.parts_eq
  have rounds : i.rounds = 1 := by
    rw [Iteration.rounds, limit, start, step]
    rfl
  refine ⟨rest, m, i, m₁, m₄, .runs (.run (.new none false)) (runs_of_unfinished hd), entered,
    by rw [parts]; rfl, steps, up, by rw [parts]; rfl, by rw [parts]; rfl, ?_, ?_,
    escapes_of_escaped fails⟩
  · intro k m' m'' he begins'
    obtain ⟨through, within⟩ := Iteration.enters_iff.mp he
    obtain rfl : k = 0 := by
      have inside := (Iteration.within_count_iff steps (Int64.ne_of_lt up).symm k).mp within
      omega
    obtain rfl := through.unique .start
    rw [Iteration.nth_zero] at begins'
    cases begins.symm.trans begins'
    rw [parts]
    exact ⟨m₃, runs_of_completed ran⟩
  · rw [rounds, Iteration.count, if_pos steps, start, step]
    exact ⟨2, rfl⟩

/-- Neither condition on loops can be left out. A counter that is a local of the body is undefined again
when the second iteration begins, and a loop whose body leaves a value fails though the body completes
and the next counter does not overflow. -/
theorem iterations_miscounted :
    (∃ rest m i m₁ m₂ m₃, Underway shadowing (fun _ => False) (.elaborate ⟨5⟩ :: rest) m ∧
      LoopParts.Entered shadowing (shadowing.program.tree.loopParts ⟨0⟩) m i m₁ ∧
      i.Enters shadowing m₁ 1 m₂ ∧
      Does shadowing ([.iterate (i.nth 1)], m₂) ((i.nth 1).begun.opening, m₃) ∧
      i.parts.counter = some ⟨2, 0⟩ ∧ i.count 1 = 2 ∧
      m₃.frames.load ⟨2, 0⟩ = .ok (.undefined .int)) ∧
    ∃ rest m i m₁ m₂, Underway littering (fun _ => False) (.elaborate ⟨5⟩ :: rest) m ∧
      LoopParts.Entered littering (littering.program.tree.loopParts ⟨0⟩) m i m₁ ∧
      i.parts.counter = none ∧ i.parts.steps ∧ 0 < i.step ∧ i.parts.whilePart = none ∧
      i.parts.untilPart = none ∧ i.BodyCompletes littering m₁ ∧ FitsWord (i.count i.rounds) ∧
      Escapes littering ([.elaborate ⟨5⟩], m) (.fault (.of (.stackImbalance 0 1))) m₂ :=
  ⟨shadowing_forgets, littering_fails⟩

end Algol68
