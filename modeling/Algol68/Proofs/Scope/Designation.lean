import Algol68.Proofs.Scope.Lexicon

/-! Static scoping is exact. Along every run of every session of a well-scoped program, each slot that
is used is found in the activation that lexical scoping designates, and no run fails for want of a
frame or a local. -/

namespace Algol68

open Outline
open Relation (ReflTransGen)

/-- A step of a run, and how it is noted. -/
inductive Recounts (job : Job) : Agenda × Machine × Lexicon → Agenda × Machine × Lexicon → Prop where
  | done {t : Task} {work rest : Agenda} {m m' : Machine} {L L' : Lexicon}
      (he : t.exec job m = .ok work m') (hl : L.Notes job m m' t L') :
      Recounts job (t :: rest, m, L) (work ++ rest, m', L')
  | resumed {t : Task} {rest agenda : Agenda} {m m' m'' : Machine} {s : Signal} {L : Lexicon}
      (he : t.exec job m = .error s m') (hu : unwind job s rest m' = .resumed agenda m'') :
      Recounts job (t :: rest, m, L) (agenda, m'', L)

/-- The nodes that sessions start from. -/
def Job.starts (job : Job) (units : NodeId → Prop) (n : NodeId) : Prop :=
  n = job.program.root ∨ units n

/-- The sessions reached by actions that came to an end, with what was noted in their runs. -/
inductive Session.Recounted (job : Job) (units : NodeId → Prop) : Session → Lexicon → Prop where
  | new (source : Option String) (keepsText : Bool) :
      Recounted job units (.new job source keepsText) .standard
  | run {s : Session} {L L' : Lexicon} {A : Agenda} {m : Machine} (h : Recounted job units s L)
      (steps : Nat) (he : (s.run steps).1.ended)
      (hr : ReflTransGen (Recounts job) ([.unit job.program.root], s.machine, L) (A, m, L'))
      (hend : Final job (A, m)) : Recounted job units (s.run steps).2 L'
  | resume {s : Session} {L L' : Lexicon} {A : Agenda} {m : Machine} (h : Recounted job units s L)
      (steps : Nat) (unit : NodeId) (hu : units unit) (he : (s.resume steps unit).1.ended)
      (hr : ReflTransGen (Recounts job) ([.unit unit], s.atRest.machine, L) (A, m, L'))
      (hend : Final job (A, m)) : Recounted job units (s.resume steps unit).2 L'
  | clear {s : Session} {L : Lexicon} (h : Recounted job units s L) : Recounted job units s.clear L

/-- The states that the runs of a session pass through, with what was noted on the way. -/
inductive Chronicle (job : Job) (units : NodeId → Prop) : Agenda → Machine → Lexicon → Prop where
  | run {s : Session} {L : Lexicon} (h : s.Recounted job units L) :
      Chronicle job units [.unit job.program.root] s.machine L
  | resume {s : Session} {L : Lexicon} (h : s.Recounted job units L) {unit : NodeId}
      (hu : units unit) : Chronicle job units [.unit unit] s.atRest.machine L
  | step {A A' : Agenda} {m m' : Machine} {L L' : Lexicon} (h : Chronicle job units A m L)
      (hs : Recounts job (A, m, L) (A', m', L')) : Chronicle job units A' m' L'

variable {job : Job} {units starts : NodeId → Prop} {A A' : Agenda} {m m' : Machine} {L L' : Lexicon}

theorem Recounts.does {x y : Agenda × Machine × Lexicon} (h : Recounts job x y) :
    Does job (x.1, x.2.1) (y.1, y.2.1) := by
  cases h with
  | done he => exact .done he
  | resumed he hu => exact .resumed he hu

/-- A state of a run in which what is noted agrees with the frames. -/
structure Recorded (job : Job) (starts : NodeId → Prop) (A : Agenda) (m : Machine) (L : Lexicon) :
    Prop where
  state : Scoped job starts L.Knows A m
  fits : L.Fits m

section

variable (hw : job.program.WellScoped starts) (hj : job.program.JumpsOutward starts)

include hw hj

theorem Recorded.step (h : Recorded job starts A m L)
    (hs : Recounts job (A, m, L) (A', m', L')) : Recorded job starts A' m' L' := by
  cases hs with
  | done he hl =>
    obtain ⟨hscoped, hfits⟩ := hl.step hw hj h.state h.fits he
    exact ⟨hscoped, hfits⟩
  | resumed he hu =>
    obtain ⟨hrest, ho, -⟩ := h.state.of_error hw hj he
    have still := h.state.consistent.still_of_error he
    obtain ⟨j, before, c, after, work, rfl, rfl, -, -, hwork, rfl, rfl⟩ := unwind_resumed hu
    have after := hrest.resumed (j := j) hwork
    refine ⟨after, h.fits.outlast after.nested ?_ (fun i f hf => ?_) ?_⟩
    · simp [LabelledClause.caught, still.nextSerial]
    · have := after.consistent.sound.given i f hf
      simpa [LabelledClause.caught, still.nextSerial] using this
    · have hf : (c.caught j (Machine.undo _ before)).frames.hollow = _ :=
        congrArg Outline.frames (hrest.consistent.caught (j := j))
      rw [hf, ho]
      exact .passAll _ m.outline before

/-- Every step can be noted. -/
theorem Recorded.exists_recounts (h : Recorded job starts A m L)
    (hs : Does job (A, m) (A', m')) : ∃ L', Recounts job (A, m, L) (A', m', L') := by
  cases hs with
  | done he =>
    obtain ⟨L', hL⟩ := Lexicon.exists_notes hw hj h.state he
    exact ⟨L', .done he hL⟩
  | resumed he hu => exact ⟨L, .resumed he hu⟩

theorem Recorded.runs (h : Recorded job starts A m L)
    (hr : ReflTransGen (Recounts job) (A, m, L) (A', m', L')) : Recorded job starts A' m' L' := by
  generalize hx : (A, m, L) = x at hr
  generalize hy : (A', m', L') = y at hr
  induction hr generalizing A' m' L' with
  | refl =>
    cases hx.trans hy.symm
    exact h
  | @tail y z _ hs ih =>
    obtain ⟨A₁, m₁, L₁⟩ := y
    subst hy
    exact (ih rfl).step hw hj hs

theorem Recorded.exists_runs (h : Recorded job starts A m L) (hr : Runs job (A, m) (A', m')) :
    ∃ L', ReflTransGen (Recounts job) (A, m, L) (A', m', L') := by
  generalize hx : (A, m) = x at hr
  generalize hy : (A', m') = y at hr
  induction hr generalizing A' m' with
  | refl =>
    cases hx.trans hy.symm
    exact ⟨L, .refl⟩
  | @tail y z _ hs ih =>
    obtain ⟨A₁, m₁⟩ := y
    subst hy
    obtain ⟨L₁, hr⟩ := ih rfl
    obtain ⟨L₂, hs⟩ := (h.runs hw hj hr).exists_recounts hw hj hs
    exact ⟨L₂, .tail hr hs⟩

end

/-- A machine between two actions whose routine values can be called. -/
structure Machine.Ready (job : Job) (starts : NodeId → Prop) (L : Lexicon) (m : Machine) : Prop where
  idle : m.Idle job
  values : m.Holds (m.Callable job starts L.Knows)
  fits : L.Fits m

theorem Outlast.undo (next : Nat) (m : Machine) (A : Agenda) :
    Outlast next m.frames.hollow (m.undo A).frames.hollow := by
  induction A generalizing m with
  | nil => exact .refl _ _
  | cons t A ih =>
    refine .trans (Nat.le_refl _) ?_ (ih _)
    cases t with
    | leave depth =>
      simp only [Task.undo, FrameStack.hollow_truncate]
      exact .take _ _ _
    | _ => exact .refl _ _

/-- The frame of the standard environ alone is nested. -/
theorem Machine.Idle.nested (h : m.Idle job) (hl : job.program.level .standard = 0) :
    Nested job.program m.frames.hollow := by
  obtain ⟨f, hf, hscope, hlevel, hlink, -⟩ := h.sound.base
  have only {i : Nat} {g : Frame} (hg : m.frames.hollow[i]? = some g) : g = f := by
    have hi := (List.getElem?_eq_some_iff.mp hg).1
    rw [FrameStack.hollow_length, h.depth] at hi
    obtain rfl : i = 0 := by omega
    exact Option.some.inj (hg.symm.trans hf)
  refine ⟨fun hg => ?_, fun hg hgl => ?_, fun hg _ => ?_⟩
  · rw [only hg, hscope, hl]
    exact hlevel
  · rw [only hg, hlink] at hgl
    cases hgl
  · rw [only hg]
    exact hscope

namespace Machine.Ready

section

variable (hw : job.program.WellScoped starts) (h : m.Ready job starts L)

include hw h

theorem recorded {unit : NodeId} (hu : starts unit) : Recorded job starts [.unit unit] m L := by
  obtain ⟨f, hf, hscope, -⟩ := h.idle.sound.base
  have htop : m.outline.top = 0 := by simp [Outline.top, Machine.outline, h.idle.depth]
  refine ⟨⟨h.idle.consistent unit, h.idle.nested hw.standard,
    ⟨⟨.standard, .start hu, ?_, fun d hd => ?_⟩, trivial⟩, h.values, ?_⟩, h.fits⟩
  · refine ⟨f, by rw [htop]; exact hf, ?_⟩
    rw [hscope]
  · have : d = .standard := hd.encloses.eq_of_level_le (by rw [hw.standard]; exact Nat.zero_le _)
    rw [this, htop]
    exact ⟨0, f, .refl, hf, hscope⟩
  · intro t ht v hv
    rw [List.mem_singleton.mp ht] at hv
    cases hv

end

end Machine.Ready

/-- What a machine leaves that keeps some of its frames and makes no new values. -/
structure Machine.Leaves (job : Job) (starts : NodeId → Prop) (L : Lexicon) (m m' : Machine) :
    Prop where
  nextSerial : m'.frames.nextSerial = m.frames.nextSerial
  outlast : Outlast m.frames.nextSerial m.frames.hollow m'.frames.hollow
  values : m'.Holds (m.Callable job starts L.Knows)

namespace Machine.Leaves

theorem undo (h : m.Leaves job starts L m') (A : Agenda) : m.Leaves job starts L (m'.undo A) := by
  refine ⟨by rw [Machine.undo_nextSerial]; exact h.nextSerial, ?_, h.values.undo A⟩
  exact h.outlast.trans (Nat.le_refl _) (.undo _ m' A)

theorem caught (h : m.Leaves job starts L m') (c : LabelledClause) (j : Jump) :
    m.Leaves job starts L (c.caught j m') := by
  refine ⟨h.nextSerial, h.outlast.trans (Nat.le_refl _) ?_, h.values.caught c j⟩
  simp only [LabelledClause.caught, FrameStack.hollow_truncate]
  exact .take _ _ _

/-- What an action leaves of the machine its run ended in. -/
theorem of_leaves {s : Session} {m'' : Machine} (h : m.Leaves job starts L m')
    (hs : s.Leaves m' m'') : m.Leaves job starts L m'' := by
  cases hs with
  | whole S hS => exact ⟨h.nextSerial, h.outlast, h.values.with_stack fun v hv => h.values.stack v (hS v hv)⟩
  | cleared S hS =>
    refine ⟨h.nextSerial, h.outlast.trans (Nat.le_refl _) ?_, fun v hv => h.values.stack v (hS v hv),
      FrameStack.Holds.truncate h.values.locals _, h.values.cells⟩
    simp only [FrameStack.hollow_truncate]
    exact .take _ _ _

end Machine.Leaves

/-- A machine of which enough is left is ready for the next action. -/
theorem Machine.Leaves.ready (hm : m.Leaves job starts L m') (hl : job.program.level .standard = 0)
    (hn : Nested job.program m.frames.hollow) (hf : L.Fits m) (hi : m'.Idle job) :
    m'.Ready job starts L := by
  refine ⟨hi, hm.values.mono fun r hr => ?_, ?_⟩
  · exact hr.outlast hn (Nat.le_of_eq hm.nextSerial.symm) (fun _ _ h => h) hm.outlast
  · refine hf.outlast (hi.nested hl) (Nat.le_of_eq hm.nextSerial.symm) (fun i f hf => ?_) hm.outlast
    rw [← hm.nextSerial]
    exact hi.sound.given i f hf

section

variable (hw : job.program.WellScoped starts) (hj : job.program.JumpsOutward starts)

include hw hj

/-- What a run leaves when a signal ends it. -/
theorem Recorded.leaves_of_escaped {t : Task} {rest : Agenda} {m₁ m₂ : Machine} {s s' : Signal}
    (h : Recorded job starts (t :: rest) m L) (he : t.exec job m = .error s m₁)
    (hu : unwind job s rest m₁ = .escaped s' m₂) : m.Leaves job starts L m₂ := by
  obtain ⟨hrest, ho, -⟩ := h.state.of_error hw hj he
  have hf : m₁.frames.hollow = m.frames.hollow := congrArg Outline.frames ho
  have hn := (h.state.consistent.still_of_error he).nextSerial
  have first : m.Leaves job starts L m₁ := by
    refine ⟨hn, by rw [hf]; exact .refl _ _, ?_⟩
    have := hrest.values
    rwa [Machine.Callable, hf, hn] at this
  rcases unwind_escaped hu with rfl | ⟨j, before, c, after, -, -, -, -, rfl⟩
  · exact first.undo rest
  · exact ((first.undo before).caught c j).undo after

/-- What an action that ended leaves of the last state of its run. -/
theorem Machine.Ready.leaves_of_ended {s : Session} {steps : Nat} {unit : NodeId} (hs : s.job = job)
    (h : s.machine.Ready job starts L) (hu : starts unit) (he : (s.runUnit steps unit).1.ended)
    (hr : ReflTransGen (Recounts job) ([.unit unit], s.machine, L) (A, m, L'))
    (hend : Final job (A, m)) : m.Leaves job starts L' (s.runUnit steps unit).2.machine := by
  have hm := (h.recorded hw hu).runs hw hj hr
  have hruns : Runs job ([.unit unit], s.machine) (A, m) :=
    hr.lift (fun x => (x.1, x.2.1)) fun _ _ hs => hs.does
  obtain ⟨m', hends, hleaves⟩ := Session.runUnit_leaves he
  rw [hs] at hends
  refine .of_leaves ?_ hleaves
  rcases hends with hr' | ⟨sig, t, rest, m₀, m₁, s₀, hr', hx, hu'⟩
  · cases hend.unique (.of_empty m') hruns hr'
    exact ⟨rfl, .refl _ _, hm.state.values⟩
  · cases hend.unique (.of_escaped hx hu') hruns hr'
    exact hm.leaves_of_escaped hw hj hx hu'

/-- An action that ended leaves what was noted in its run, and nothing that does not agree with it. -/
theorem Machine.Ready.of_ended {s : Session} {steps : Nat} {unit : NodeId} (hs : s.job = job)
    (h : s.machine.Ready job starts L) (hu : starts unit) (he : (s.runUnit steps unit).1.ended)
    (hr : ReflTransGen (Recounts job) ([.unit unit], s.machine, L) (A, m, L'))
    (hend : Final job (A, m)) : (s.runUnit steps unit).2.machine.Ready job starts L' := by
  have hm := (h.recorded hw hu).runs hw hj hr
  have idle := Session.idle_of_ended (hs ▸ h.idle) he
  rw [hs] at idle
  exact (h.leaves_of_ended hw hj hs hu he hr hend).ready hw.standard hm.state.nested hm.fits idle

end

theorem Machine.new_ready (keepsText : Bool) :
    (Machine.new job keepsText).Ready job starts .standard := by
  have first {i : Nat} {f : Frame} (hf : (Machine.new job keepsText).frames.hollow[i]? = some f) :
      f.scope = .standard ∧ f.serial = 0 := by
    have := List.mem_of_getElem? hf
    simp only [FrameStack.hollow, Machine.new, FrameStack.standard, List.map_cons, List.map_nil,
      List.mem_singleton] at this
    rw [this]
    exact ⟨rfl, rfl⟩
  refine ⟨Machine.new_idle keepsText, ⟨fun v hv => ?_, fun f hf v hv => ?_, fun v hv => ?_⟩,
    ⟨fun i f _ k g _ hg => ?_, fun _ _ _ h => h.elim⟩⟩
  · simp [Machine.new] at hv
  · simp only [Machine.new, FrameStack.standard, List.mem_toArray, List.mem_singleton] at hf
    rw [hf] at hv
    exact job.program.freshLocals_within trivial .standard v hv
  · simp [Machine.new, Store.empty] at hv
  · rw [(first hg).1, (first hg).2]
    rfl

theorem Machine.Ready.atRest {s : Session} (hl : job.program.level .standard = 0)
    (h : s.machine.Ready job starts L) : s.atRest.machine.Ready job starts L := by
  have hm : s.machine.Leaves job starts L s.atRest.machine := by
    refine ⟨rfl, ?_, ⟨fun v hv => ?_, ?_, h.values.cells⟩⟩
    · simp only [Session.atRest, FrameStack.hollow_truncate]
      exact .take _ _ _
    · simp [Session.atRest] at hv
    · exact FrameStack.Holds.truncate h.values.locals 1
  exact hm.ready hl (h.idle.nested hl) h.fits (Session.atRest_idle h.idle)

section

variable (hw : job.program.WellScoped (job.starts units))
  (hj : job.program.JumpsOutward (job.starts units))

include hw hj

theorem Session.Recounted.ready {s : Session} (h : s.Recounted job units L) :
    s.job = job ∧ s.machine.Ready job (job.starts units) L := by
  induction h with
  | new source keepsText => exact ⟨rfl, Machine.new_ready keepsText⟩
  | run h steps he hr hend ih =>
    obtain ⟨rfl, hready⟩ := ih
    exact ⟨Session.runUnit_job _ steps _, hready.of_ended hw hj rfl (.inl rfl) he hr hend⟩
  | resume h steps unit hu he hr hend ih =>
    obtain ⟨rfl, hready⟩ := ih
    exact ⟨Session.runUnit_job _ steps _,
      (hready.atRest hw.standard).of_ended hw hj rfl (.inr hu) he hr hend⟩
  | clear h ih => exact ⟨ih.1, ⟨ih.2.idle.of_outline rfl (Nat.le_refl _) ih.2.idle.truthful,
      ⟨ih.2.values.stack, ih.2.values.locals, ih.2.values.cells⟩, ⟨ih.2.fits.seen, ih.2.fits.held⟩⟩⟩

/-- What was noted of a run agrees with the frames in each of its states. -/
theorem Chronicle.recorded (h : Chronicle job units A m L) :
    Recorded job (job.starts units) A m L := by
  induction h with
  | run h => exact (h.ready hw hj).2.recorded hw (.inl rfl)
  | resume h hu => exact ((h.ready hw hj).2.atRest hw.standard).recorded hw (.inr hu)
  | step _ hs ih => exact ih.step hw hj hs

/-- Of every action that came to an end it can be noted what happened. -/
theorem Machine.Ready.exists_final {s : Session} {steps : Nat} {unit : NodeId} (hs : s.job = job)
    (h : s.machine.Ready job (job.starts units) L) (hu : job.starts units unit)
    (he : (s.runUnit steps unit).1.ended) :
    ∃ A m L', ReflTransGen (Recounts job) ([.unit unit], s.machine, L) (A, m, L') ∧
      Final job (A, m) := by
  have start := h.recorded hw hu
  obtain ⟨m', hends, -⟩ := Session.runUnit_leaves he
  rw [hs] at hends
  rcases hends with hr | ⟨sig, t, rest, m₀, m₁, s₀, hr, hx, hu'⟩
  · obtain ⟨L', hr⟩ := start.exists_runs hw hj hr
    exact ⟨_, _, L', hr, .of_empty m'⟩
  · obtain ⟨L', hr⟩ := start.exists_runs hw hj hr
    exact ⟨_, _, L', hr, .of_escaped hx hu'⟩

theorem Session.Reached.exists_recounted {s : Session} (h : Session.Reached job units s) :
    ∃ L, s.Recounted job units L := by
  induction h with
  | new source keepsText => exact ⟨_, .new source keepsText⟩
  | run h steps he ih =>
    obtain ⟨L, hL⟩ := ih
    obtain ⟨hjob, hready⟩ := hL.ready hw hj
    subst hjob
    obtain ⟨A, m, L', hr, hend⟩ := hready.exists_final hw hj rfl (.inl rfl) he
    exact ⟨L', .run hL steps he hr hend⟩
  | resume h steps unit hu he ih =>
    obtain ⟨L, hL⟩ := ih
    obtain ⟨hjob, hready⟩ := hL.ready hw hj
    subst hjob
    obtain ⟨A, m, L', hr, hend⟩ := Machine.Ready.exists_final hw hj (s := Session.atRest _) rfl
      (hready.atRest hw.standard) (.inr hu) he
    exact ⟨L', .resume hL steps unit hu he hr hend⟩
  | clear h ih =>
    obtain ⟨L, hL⟩ := ih
    exact ⟨L, .clear hL⟩

/-- Every state of a run has been noted. -/
theorem Underway.exists_chronicle (h : Underway job units A m) :
    ∃ L, Chronicle job units A m L := by
  induction h with
  | run h =>
    obtain ⟨L, hL⟩ := h.exists_recounted hw hj
    exact ⟨L, .run hL⟩
  | resume h hu =>
    obtain ⟨L, hL⟩ := h.exists_recounted hw hj
    exact ⟨L, .resume hL hu⟩
  | step _ hs ih =>
    obtain ⟨L, hL⟩ := ih
    obtain ⟨L', hs⟩ := (hL.recorded hw hj).exists_recounts hw hj hs
    exact ⟨L', .step hL hs⟩

end

end Algol68
