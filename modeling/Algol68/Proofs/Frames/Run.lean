import Algol68.Proofs.Frames.Follow
import Algol68.Proofs.Run.Session

/-! The outline, and what is known about nodes, along runs and sessions. What the tasks on the agenda will leave of the outline never
changes during a run, and a signal leaves the same of it, so every action of a session begins and
ends with the frame of the standard environ alone. -/

namespace Algol68

open Outline (Along Admits)

variable {job : Job}

/-- `u` is what a signal leaves where doing the tasks would have left `o`: the same, but that word
of a labelled clause may still be on the innermost frame. -/
def Outline.Stale (o u : Outline) : Prop :=
  u = o ∨ o.Vacant ∧ ∃ r, u = { o with
    frames := o.frames.modify (o.frames.length - 1) (Frame.announce r) }

namespace Outline.Stale

variable {o : Outline} {m : Machine}

theorem eq_of_labelled {u : Outline} {c : LabelledClause} (h : o.Stale u)
    (ha : o.Admits (.labelled c)) : u = o := by
  rcases h with h | ⟨hv, -⟩
  · exact h
  · obtain ⟨-, hlen, f, hf, -, hr⟩ := ha
    have hnone := hv.top f (by rw [hlen]; exact hf)
    rw [hr] at hnone
    cases hnone

theorem eq_of_length {u : Outline} (h : o.Stale u) (hl : o.frames.length = 1) : u = o := by
  rcases h with h | ⟨hv, -⟩
  · exact h
  · have := hv.inner
    omega

theorem labelled {c : LabelledClause} (ha : o.Admits (.labelled c)) :
    (o.pass (.labelled c)).Stale o := by
  obtain ⟨hpos, hlen, f, hf, hs, hr⟩ := ha
  have hf' : (o.frames.modify c.frame Frame.vacate)[c.frame]? = some f.vacate := by simp [hf]
  refine .inr ⟨⟨?_, fun g hg => ?_⟩, ⟨c.serial, c.baseline⟩, ?_⟩
  · simp only [Outline.pass, List.length_modify]
    omega
  · simp only [Outline.pass, List.length_modify, hlen, Nat.add_sub_cancel, hf'] at hg
    cases hg
    rfl
  · refine congrArg (Outline.mk · o.calls) (List.ext_getElem? fun k => ?_)
    simp only [Outline.pass, List.length_modify, hlen, Nat.add_sub_cancel, List.getElem?_modify]
    by_cases hk : c.frame = k
    · subst hk
      simp [hf, Frame.vacate, Frame.announce, ← hr]
    · simp [hk]

theorem pass (h : o.Stale m.outline) {t : Task} (ha : o.Admits t) :
    (o.pass t).Stale (t.undo m).outline := by
  cases t with
  | leave depth =>
    have hu : (Task.undo m (.leave depth)).outline =
        { m.outline with frames := m.outline.frames.take depth } := by
      simp [Task.undo, Machine.outline]
    rw [hu]
    rcases h with h | ⟨-, r, h⟩
    · exact .inl (by rw [h]; rfl)
    · refine .inl ?_
      rw [h]
      refine congrArg (Outline.mk · o.calls) (List.ext_getElem? fun k => ?_)
      simp only [List.getElem?_take, List.getElem?_modify]
      split
      · next hk => simp [show o.frames.length - 1 ≠ k by have := ha.1; omega]
      · rfl
  | endCall =>
    rcases h with h | ⟨hv, r, h⟩
    · exact .inl (by rw [← h]; rfl)
    · refine .inr ⟨⟨hv.inner, hv.top⟩, r, ?_⟩
      have hu : (Task.undo m .endCall).outline = { m.outline with calls := m.outline.calls.tail } :=
        rfl
      rw [hu, h]
      rfl
  | labelled c =>
    have hu : (Task.undo m (.labelled c)).outline = o := h.eq_of_labelled ha
    rw [hu]
    exact .labelled ha
  | _ => exact h

theorem passAll (h : o.Stale m.outline) {A : Agenda} (ha : Along Admits o A) :
    (o.passAll A).Stale (m.undo A).outline := by
  induction A generalizing o m with
  | nil => exact h
  | cons t A ih => exact ih (h.pass ha.1) ha.2

end Outline.Stale

/-- A clause goes on in the outline in which its end was waited for. -/
theorem LabelledClause.caught_outline {c : LabelledClause} {j : Jump} {o : Outline} {m : Machine}
    (ha : o.Admits (.labelled c)) (h : o.Stale m.outline) : (c.caught j m).outline = o := by
  have hm := h.eq_of_labelled ha
  have hu : (c.caught j m).outline =
      { m.outline with frames := m.outline.frames.take (c.frame + 1) } := by
    simp [caught, Machine.outline]
  rw [hu, hm, ← ha.2.1, List.take_length]

theorem LabelledClause.resume_plain {c : LabelledClause} {target : Option NodeId} {work : Agenda}
    (h : c.resume job target = .ok work) :
    ∃ steps, work = steps ++ [.labelled c] ∧ ∀ t ∈ steps, t.plain := by
  obtain ⟨unit, -, -, rfl⟩ := resume_eq_ok h
  exact ⟨_, rfl, Exec.plain_chain c.baseline _⟩

/-- The frames of a machine are nested, what it learned about nodes is true, and each task on its
agenda will find what it asks for. -/
structure Consistent (job : Job) (A : Agenda) (m : Machine) : Prop where
  sound : m.outline.Sound job m.frames.nextSerial
  truthful : m.annotations.Truthful job
  along : Along Admits m.outline A

namespace Consistent

variable {A A' : Agenda} {m m' : Machine}

theorem of_append {B : Agenda} (h : Consistent job (A ++ B) m) : Consistent job A m :=
  ⟨h.sound, h.truthful, (Outline.along_append.mp h.along).1⟩

theorem exec {t : Task} {rest work : Agenda} (h : Consistent job (t :: rest) m)
    (he : t.exec job m = .ok work m') :
    Consistent job (work ++ rest) m' ∧ m'.outline.passAll work = m.outline.pass t ∧
      m.frames.nextSerial ≤ m'.frames.nextSerial := by
  obtain ⟨hs, hn, ht, ha, hp⟩ := Exec.wp_ok (Exec.exec_follows h.sound h.along.1) he
  refine ⟨⟨hs, ht h.truthful, Outline.along_append.mpr ⟨ha, ?_⟩⟩, hp, hn⟩
  rw [hp]
  exact h.along.2

theorem still_of_error {t : Task} {rest : Agenda} {s : Signal} (h : Consistent job (t :: rest) m)
    (he : t.exec job m = .error s m') : m.Still job m' :=
  Exec.wp_error (Exec.exec_follows h.sound h.along.1) he

theorem pass_of_error {t : Task} {s : Signal} (he : t.exec job m = .error s m') :
    m.outline.pass t = m.outline := by
  cases t with
  | leave | endCall | labelled => cases he
  | _ => rfl

theorem of_error {t : Task} {rest : Agenda} {s : Signal} (h : Consistent job (t :: rest) m)
    (he : t.exec job m = .error s m') : Consistent job rest m' ∧ m.outline = m'.outline := by
  have hst := h.still_of_error he
  refine ⟨⟨?_, hst.learns h.truthful, ?_⟩, hst.outline.symm⟩
  · rw [hst.outline, hst.nextSerial]
    exact h.sound
  · rw [hst.outline, ← pass_of_error he]
    exact h.along.2

/-- Where a jump is taken, the frames and calls are those with which the clause was to end. -/
theorem caught (before after : Agenda) {c : LabelledClause} {j : Jump}
    (h : Consistent job (before ++ .labelled c :: after) m) :
    (c.caught j (m.undo before)).outline = m.outline.passAll before :=
  have along := Outline.along_append.mp h.along
  c.caught_outline along.2.1 (Outline.Stale.passAll (.inl rfl) along.1)

theorem resume {before after work : Agenda} {c : LabelledClause} {j : Jump}
    {target : Option NodeId} (h : Consistent job (before ++ .labelled c :: after) m)
    (hw : c.resume job target = .ok work) :
    Consistent job (work ++ after) (c.caught j (m.undo before)) ∧
      (m.outline.passAll before).passAll work =
        (m.outline.passAll before).pass (.labelled c) := by
  obtain ⟨steps, rfl, hp⟩ := LabelledClause.resume_plain hw
  have along := Outline.along_append.mp h.along
  refine ⟨⟨?_, by simpa [LabelledClause.caught] using h.truthful, ?_⟩, ?_⟩
  · rw [h.caught]
    have hs := h.sound.passAll along.1
    simpa [LabelledClause.caught] using hs
  · rw [h.caught, List.append_assoc, Outline.along_append, Outline.passAll_of_plain hp]
    exact ⟨Outline.along_of_plain hp, along.2⟩
  · rw [Outline.passAll_append, Outline.passAll_of_plain hp]
    rfl

/-- A step keeps the agenda consistent with the frames, and what will be left of the outline. -/
theorem step (h : Consistent job A m) (hs : Does job (A, m) (A', m')) :
    Consistent job A' m' ∧ m'.outline.passAll A' = m.outline.passAll A ∧
      m.frames.nextSerial ≤ m'.frames.nextSerial := by
  cases hs with
  | @done t work rest _ _ he =>
    obtain ⟨hc, hp, hn⟩ := h.exec he
    refine ⟨hc, ?_, hn⟩
    rw [Outline.passAll_append, hp]
    rfl
  | @resumed t rest _ _ m₁ _ s he hu =>
    have hst := h.still_of_error he
    obtain ⟨j, before, c, after, work, rfl, rfl, -, -, hw, rfl, rfl⟩ := unwind_resumed hu
    obtain ⟨hrest, ho⟩ := h.of_error he
    obtain ⟨hc, hp⟩ := hrest.resume (j := j) hw
    refine ⟨hc, ?_, ?_⟩
    · rw [hrest.caught, Outline.passAll_append, hp, ← ho, Outline.passAll_cons,
        pass_of_error he, Outline.passAll_append]
      rfl
    · simp [LabelledClause.caught, hst.nextSerial]

theorem runs (h : Consistent job A m) (hr : Runs job (A, m) (A', m')) :
    Consistent job A' m' ∧ m'.outline.passAll A' = m.outline.passAll A ∧
      m.frames.nextSerial ≤ m'.frames.nextSerial := by
  generalize hx : (A, m) = x at hr
  generalize hy : (A', m') = y at hr
  induction hr generalizing A' m' with
  | refl =>
    cases hx.trans hy.symm
    exact ⟨h, rfl, Nat.le_refl _⟩
  | @tail y z hr hs ih =>
    obtain ⟨A₁, m₁⟩ := y
    subst hy
    obtain ⟨hc, hp, hn⟩ := ih rfl
    obtain ⟨hc', hp', hn'⟩ := hc.step hs
    exact ⟨hc', hp'.trans hp, Nat.le_trans hn hn'⟩

theorem escapes {s : Signal} (h : Consistent job A m) (he : Escapes job (A, m) s m') :
    (m.outline.passAll A).Stale m'.outline ∧ m.frames.nextSerial ≤ m'.frames.nextSerial ∧
      m'.annotations.Truthful job := by
  obtain ⟨t, rest, m₀, m₁, s₀, hr, hx, hu⟩ := he
  obtain ⟨hc, hp, hn⟩ := h.runs hr
  have hst := hc.still_of_error hx
  have ht := hst.learns hc.truthful
  have along : Along Admits m₁.outline rest := (hc.of_error hx).1.along
  have hrest : m₁.outline.passAll rest = m.outline.passAll A := by
    rw [← hp, hst.outline, Outline.passAll_cons, pass_of_error hx]
  rcases unwind_escaped hu with rfl | ⟨j, before, c, after, -, rfl, -, -, rfl⟩
  · rw [← hrest]
    refine ⟨Outline.Stale.passAll (.inl rfl) along, ?_, by simpa using ht⟩
    rw [Machine.undo_nextSerial, hst.nextSerial]
    exact hn
  · have split := Outline.along_append.mp along
    have hcaught := c.caught_outline (j := j) split.2.1 (Outline.Stale.passAll (.inl rfl) split.1)
    rw [← hrest, Outline.passAll_append, Outline.passAll_cons, ← hcaught]
    refine ⟨Outline.Stale.passAll ?_ (hcaught ▸ split.2.2), ?_, ?_⟩
    · exact .labelled (hcaught ▸ split.2.1)
    · simpa [LabelledClause.caught, hst.nextSerial] using hn
    · simpa [LabelledClause.caught] using ht

end Consistent

/-- A machine between two actions: the frame of the standard environ is all there is. -/
structure Machine.Idle (job : Job) (m : Machine) : Prop where
  sound : m.outline.Sound job m.frames.nextSerial
  truthful : m.annotations.Truthful job
  depth : m.frames.depth = 1
  calls : m.calls = []

theorem Machine.Idle.of_outline {m m' : Machine} (h : m.Idle job) (ho : m'.outline = m.outline)
    (hn : m.frames.nextSerial ≤ m'.frames.nextSerial)
    (ht : m'.annotations.Truthful job) : m'.Idle job := by
  refine ⟨?_, ht, ?_, ?_⟩
  · rw [ho]
    exact h.sound.of_le hn
  · have := congrArg (fun o => o.frames.length) ho
    simpa [Machine.outline, h.depth] using this
  · have := congrArg Outline.calls ho
    simpa [Machine.outline, h.calls] using this

theorem Machine.Idle.consistent {m : Machine} (h : m.Idle job) (unit : NodeId) :
    Consistent job [.unit unit] m := ⟨h.sound, h.truthful, trivial, trivial⟩

theorem Machine.Idle.of_ends {unit : NodeId} (h : m.Idle job) (he : Ends job ([.unit unit], m) m') :
    m'.Idle job := by
  have hc := h.consistent unit
  rcases he with hr | ⟨sig, hx⟩
  · obtain ⟨hc', hp, hn⟩ := hc.runs hr
    exact h.of_outline hp hn hc'.truthful
  · obtain ⟨hst, hn, ht⟩ := hc.escapes hx
    refine h.of_outline (hst.eq_of_length ?_) hn ht
    simpa [Machine.outline, Outline.pass] using h.depth

theorem Machine.new_outline (keepsText : Bool) : (Machine.new job keepsText).outline =
    ⟨[Frame.hollow ⟨.standard, 0, none, 0, job.program.freshLocals .standard, none⟩], []⟩ := rfl

theorem Machine.new_idle (keepsText : Bool) : (Machine.new job keepsText).Idle job := by
  refine ⟨?_, .new _, rfl, rfl⟩
  rw [Machine.new_outline]
  have only : ∀ {i : Nat} {f g : Frame}, [g][i]? = some f → i = 0 ∧ f = g := by
    intro i f g hf
    cases i with
    | zero => exact ⟨rfl, (Option.some.inj hf).symm⟩
    | succ i => simp at hf
  refine ⟨⟨_, rfl, rfl, rfl, rfl, rfl, rfl⟩, ?_, ?_, ?_, ?_⟩
  · intro i f hf
    cases (only hf).1
  · intro i f hf
    obtain ⟨-, rfl⟩ := only hf
    simp [Frame.hollow, Program.freshLocals]
  · intro i j f g hij hi hj
    have := (only hj).1
    omega
  · intro i f hf
    obtain ⟨-, rfl⟩ := only hf
    exact Nat.one_pos

namespace Session

theorem idle_of_ended {s : Session} {steps : Nat} {unit : NodeId} (h : s.machine.Idle s.job)
    (he : (s.runUnit steps unit).1.ended) : (s.runUnit steps unit).2.machine.Idle s.job := by
  obtain ⟨m, hm, hl⟩ := runUnit_leaves he
  have idle := h.of_ends hm
  generalize (s.runUnit steps unit).2.machine = m' at hl ⊢
  cases hl with
  | whole S => exact idle.of_outline rfl (Nat.le_refl _) idle.truthful
  | cleared S =>
    refine idle.of_outline ?_ (Nat.le_refl _) idle.truthful
    have : m.frames.hollow.take 1 = m.frames.hollow := by
      rw [List.take_of_length_le]
      simp [idle.depth]
    simp [Machine.outline, h.depth, this, idle.calls]

theorem atRest_idle {s : Session} (h : s.machine.Idle job) : s.atRest.machine.Idle job := by
  refine h.of_outline ?_ (Nat.le_refl _) h.truthful
  have : s.machine.frames.hollow.take 1 = s.machine.frames.hollow := by
    rw [List.take_of_length_le]
    simp [h.depth]
  simp [Machine.outline, atRest, this, h.calls]

theorem Reached.idle {units : NodeId → Prop} {s : Session} (h : Reached job units s) :
    s.machine.Idle job := by
  induction h with
  | new source keepsText => exact Machine.new_idle keepsText
  | run h steps he ih =>
    rw [← h.job_eq] at ih ⊢
    exact idle_of_ended ih he
  | resume h steps unit hu he ih =>
    rw [← h.job_eq] at ih ⊢
    exact idle_of_ended (s := Session.atRest _) (atRest_idle ih) he
  | clear h ih => exact ih.of_outline rfl (Nat.le_refl _) ih.truthful

end Session

/-- Whatever state a session passes through, the frames suit the agenda, and its tasks will leave
the frame of the standard environ alone. -/
theorem Underway.consistent {units : NodeId → Prop} {A : Agenda} {m : Machine}
    (h : Underway job units A m) :
    Consistent job A m ∧ (m.outline.passAll A).frames.length = 1 ∧
      (m.outline.passAll A).calls = [] := by
  have start {m : Machine} (h : m.Idle job) (unit : NodeId) :
      Consistent job [.unit unit] m ∧ (m.outline.passAll [.unit unit]).frames.length = 1 ∧
        (m.outline.passAll [.unit unit]).calls = [] :=
    ⟨h.consistent unit, by simpa [Outline.pass, Machine.outline] using h.depth, h.calls⟩
  induction h with
  | run h => exact start h.idle _
  | resume h hu => exact start (Session.atRest_idle h.idle) _
  | step _ hs ih =>
    obtain ⟨hc, hlen, hcalls⟩ := ih
    obtain ⟨hc', hp, -⟩ := hc.step hs
    rw [hp]
    exact ⟨hc', hlen, hcalls⟩

end Algol68
