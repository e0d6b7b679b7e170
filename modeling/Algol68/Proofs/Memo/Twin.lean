import Algol68.Proofs.Memo.Step

/-! Agendas side by side. Where a closed clause is evaluated by its only unit, the second machine
has still to leave the frame of the clause and to see that it yields its value; everywhere else the
tasks of both agendas are the same but for the frames they speak of. A signal passes both agendas
alike. -/

namespace Algol68

open Outline (Along Admits)

/-- The frame that is innermost when the first tasks are done, where they name it. -/
def Agenda.frame? : Agenda → Option Nat
  | [] | .within _ :: _ => none
  | .leave depth :: _ => some depth
  | .labelled c :: _ => some c.frame
  | .iterate i :: _ | .afterWhile i :: _ | .afterUntil i :: _ | .advance i :: _ => some i.body
  | _ :: A => frame? A

/-- Each clause on the agenda is to run in a frame that is named by a task behind it. -/
def Agenda.Framed : Agenda → Prop
  | [] => True
  | .clause .. :: A => (frame? A).isSome ∧ Framed A
  | _ :: A => Framed A

namespace Agenda

variable {A B : Agenda} {t : Task} {k : Nat}

theorem frame?_append (h : (frame? A).isSome) : frame? (A ++ B) = frame? A := by
  fun_induction frame? A with
  | case9 t A h₁ h₂ h₃ h₄ h₅ h₆ h₇ ih =>
    have : frame? (t :: (A ++ B)) = frame? (A ++ B) := by
      cases t <;> simp_all [frame?]
    exact this.trans (ih h)
  | case1 | case2 => cases h
  | _ => rfl

theorem Framed.append (hA : Framed A) (hB : Framed B) : Framed (A ++ B) := by
  induction A with
  | nil => exact hB
  | cons t A ih =>
    cases t with
    | clause =>
      refine ⟨?_, ih hA.2⟩
      rw [show List.append A B = A ++ B from rfl, frame?_append hA.1]
      exact hA.1
    | _ => exact ih hA

theorem framed_of_plain (h : ∀ t ∈ A, t.plain) : Framed A := by
  induction A with
  | nil => trivial
  | cons t A ih =>
    have ht := h t (List.mem_cons_self ..)
    have hA := ih fun u hu => h u (List.mem_cons_of_mem _ hu)
    cases t with
    | clause => cases ht
    | _ => exact hA

theorem Framed.tail (h : Framed (t :: A)) : Framed A := by
  cases t with
  | clause => exact h.2
  | _ => exact h

theorem Framed.of_append (h : Framed (A ++ B)) : Framed B := by
  induction A with
  | nil => exact h
  | cons t A ih => exact ih h.tail

theorem length_of_frame? {o : Outline} (ha : Along Admits o A) (h : frame? A = some k) :
    o.frames.length = k + 1 := by
  induction A generalizing o with
  | nil => cases h
  | cons t A ih =>
    cases t with
    | within => cases h
    | leave =>
      cases h
      exact ha.1.1
    | labelled c =>
      cases h
      exact ha.1.2.1
    | iterate | afterWhile | afterUntil | advance =>
      cases h
      exact ha.1.1
    | endCall => exact ih (o := o.pass .endCall) ha.2 h
    | _ => exact ih ha.2 h

end Agenda

namespace Exec

open Agenda

variable {job : Job} {m : Machine}

theorem elaborate_framed (node : NodeId) :
    wp (elaborate job node) (fun work _ => work.Framed) (fun _ _ => True) m := by
  by_cases hq : changesFrame (job.program.tree.kind node) = false
  · exact wp_mono (elaborate_quiet node hq m) (fun _ _ h => framed_of_plain h.2) fun _ _ _ => trivial
  cases hk : job.program.tree.kind node with
  | closed | conditional =>
    simp only [elaborate, hk, enclosed, wp_bind, wp_depth]
    exact wp_mono (Rote.enter job _ _) (fun _ _ _ => ⟨rfl, trivial⟩) fun _ _ _ => trivial
  | integerCase | conformityCase =>
    simp only [elaborate, hk, enclosed, wp_bind, wp_depth]
    refine wp_mono (alternatives_still (by simp [Program.chainOf, hk])) (fun units m' _ => ?_)
      fun _ _ h => h.elim
    simp only [wp_bind]
    exact wp_mono (Rote.enter job _ _) (fun _ _ _ => ⟨rfl, trivial⟩) fun _ _ _ => trivial
  | jump l =>
    simp only [elaborate, hk, wp_bind, wp_depth]
    exact wp_mono (jump_still l) (fun _ _ h => h.elim) fun _ _ _ => trivial
  | _ => simp [hk, changesFrame] at hq

theorem iteration_framed (i : Iteration) : Agenda.Framed (iterate.iteration i) := by
  simp only [iterate.iteration]
  cases i.parts.untilPart with
  | none => exact ⟨rfl, trivial⟩
  | some enquiry => exact ⟨rfl, rfl, trivial⟩

theorem clause_framed (node : NodeId) (enquiry : Bool) :
    wp (clause job node enquiry) (fun work _ => work.Framed) (fun _ _ => True) m := by
  have steps (baseline : Nat) (chain : List ChainStep) :
      Agenda.Framed (chain.map (·.task baseline)) := framed_of_plain (plain_chain baseline chain)
  have ending (p : Prop) [Decidable p] (baseline : Nat) :
      Agenda.Framed (if p then [Task.cut baseline] else []) := by
    split <;> trivial
  simp only [clause]
  split
  · next scope range hk =>
    simp only [wp_bind, wp_depth, wp_ite]
    refine ⟨fun _ => ?_, fun hl => ?_⟩
    · refine wp_mono (announce_rote node _ _ m) (fun c m' _ => ?_) fun _ _ _ => trivial
      exact (steps _ _).append (ending _ _)
    · refine wp_mono (linearChain_still hk hl) (fun chain m' _ => ?_) fun _ _ h => h.elim
      exact (steps _ _).append (ending _ _)
  · trivial

/-- Clauses are put on the agenda with the task that names the frame they run in. -/
theorem exec_framed (t : Task) :
    wp (t.exec job) (fun work _ => work.Framed) (fun _ _ => True) m := by
  have quiet {x : Exec Agenda} (hq : Quiet job x) (m : Machine) :
      wp x (fun work _ => work.Framed) (fun _ _ => True) m :=
    wp_mono (hq m) (fun _ _ h => framed_of_plain h.2) fun _ _ _ => trivial
  have called (m : Machine) (callee : Value) (args : List Value) (site : NodeId) :
      wp (callValue job callee args site) (fun work _ => work.Framed) (fun _ _ => True) m := by
    unfold callValue
    split
    · exact quiet (callStandard_quiet _ _) m
    · simp only [callRoutine, wp_bind, wp_get, wp_ite, wp_fail]
      refine ⟨fun _ => trivial, fun _ => ?_⟩
      split <;> trivial
    · trivial
    · trivial
    · trivial
  by_cases hq : t.quiet
  · exact quiet (exec_quiet hq) m
  by_cases hc : t.calls
  · exact wp_calls hc (fun _ _ _ => trivial) fun callee args site S _ => called _ callee args site
  cases t with
  | elaborate node => exact elaborate_framed node
  | clause node enquiry => exact clause_framed node enquiry
  | conform units outPart mode =>
    simp only [Task.exec, conform, wp_bind, wp_pop]
    refine ⟨fun S v _ => ?_, fun _ => trivial⟩
    split
    · rw [wp_bind, wp_lift]
      refine ⟨fun found _ => ?_, fun _ _ => trivial⟩
      split
      · rw [wp_bind]
        refine wp_mono (Rote.enter job _ _) (fun d m' _ => ?_) fun _ _ _ => trivial
        refine Framed.append (framed_of_plain fun t ht => ?_) trivial
        obtain ⟨slot, -, rfl⟩ := List.mem_map.mp ht
        rfl
      · rw [wp_ite, wp_bind, wp_fail]
        exact ⟨fun _ => trivial, fun _ => quiet (orUndefined_quiet mode outPart) _⟩
    · trivial
    · trivial
  | enterLoop i =>
    simp only [Task.exec, enterLoop, wp_bind]
    exact wp_mono (Rote.enter job _ _) (fun _ _ _ => trivial) fun _ _ _ => trivial
  | enterBody i =>
    simp only [Task.exec, enterBody, wp_bind]
    exact wp_mono (Rote.enter job _ _) (fun _ _ _ => trivial) fun _ _ _ => trivial
  | iterate i =>
    simp only [Task.exec, iterate, wp_ite, wp_bind]
    refine ⟨fun _ => ?_, fun _ => trivial⟩
    refine wp_mono (@setCounter_still job m i) (fun _ m₁ _ => ?_) fun _ _ _ => trivial
    rw [wp_bind]
    refine wp_mono (@renewBody_still job m₁ i) (fun _ m₂ _ => ?_) fun _ _ _ => trivial
    rw [wp_pure]
    split
    · exact ⟨rfl, trivial⟩
    · exact iteration_framed _
  | afterWhile i =>
    simp only [Task.exec, afterWhile, popBool, wp_bind, wp_pop, wp_lift, wp_pure]
    refine ⟨fun S v _ => ⟨fun b _ => ?_, fun _ _ => trivial⟩, fun _ => trivial⟩
    split
    · exact iteration_framed i
    · trivial
  | afterUntil i =>
    simp only [Task.exec, afterUntil, popBool, wp_bind, wp_pop, wp_lift, wp_pure]
    refine ⟨fun S v _ => ⟨fun b _ => ?_, fun _ _ => trivial⟩, fun _ => trivial⟩
    split <;> trivial
  | advance i =>
    simp only [Task.exec, advance, wp_ite]
    refine ⟨fun _ => ?_, fun _ => trivial⟩
    split <;> trivial
  | call | operate => exact absurd rfl hc
  | coerce kind node operand baseline =>
    have hk : kind ≠ .deprocedure := fun hk => hc (hk ▸ rfl)
    exact quiet (coerce_quiet kind node operand baseline hk) m
  | leave | endCall | labelled => trivial
  | enterRoutine scope environ args body =>
    simp only [Task.exec, enterRoutine, wp_bind, wp_enterAt, wp_modify, wp_pure]
    exact ⟨fun _ _ => trivial, fun _ _ => trivial⟩
  | _ => exact absurd rfl hq

end Exec

namespace Guide

variable {job : Job} {g g' : Guide} {H H' : Agenda → NodeId → Nat → Prop} {o : Outline}
  {A B : Agenda} {depth next : Nat}

/-- Two agendas of which the second one mirrors the first. Where the unit of a closed clause is
evaluated for the clause, the clause `n` was begun with `b` values on the stack of the second
machine, as `H` knows of the tasks up to there, and its frame lies above all frames of the first
machine. -/
inductive Twin (job : Job) (g : Guide) :
    (Agenda → NodeId → Nat → Prop) → Outline → Agenda → Agenda → Prop where
  | nil (H : Agenda → NodeId → Nat → Prop) (o : Outline) : Twin job g H o [] []
  | cons (t : Task) {H : Agenda → NodeId → Nat → Prop} {o : Outline} {A B : Agenda}
      (h : Twin job g (fun X => H (t :: X)) (o.pass t) A B) :
      Twin job g H o (t :: A) (g.task t :: B)
  | reduced {n : NodeId} {b d : Nat} {ending : Agenda} {H : Agenda → NodeId → Nat → Prop}
      {o : Outline} {A B : Agenda} (hb : H [] n b) (hd : ∀ i < o.frames.length, g.place i < d)
      (he : ending = [] ∨ ending = [.cut b] ∧ job.program.tree.mode n = .void)
      (h : Twin job g (fun X => H (.within n :: X)) o A B) :
      Twin job g H o (.within n :: A)
        (ending ++ .leave d :: .yields (job.program.tree.mode n) b :: .settle n :: B)

namespace Twin

theorem mono (h : Twin job g H o A B) (hH : ∀ X n b, H X n b → H' X n b) : Twin job g H' o A B := by
  induction h generalizing H' with
  | nil => exact .nil _ _
  | cons t _ ih => exact .cons t (ih fun X => hH (t :: X))
  | reduced hb hd he _ ih => exact .reduced (hH _ _ _ hb) hd he (ih fun X => hH (_ :: X))

theorem append {work : Agenda} (h : Twin job g (fun X => H (work ++ X)) (o.passAll work) A B) :
    Twin job g H o (work ++ A) (work.map g.task ++ B) := by
  induction work generalizing H o with
  | nil => exact h
  | cons t work ih => exact .cons t (ih h)

theorem of_units (g : Guide) (H : Agenda → NodeId → Nat → Prop) (o : Outline) (A : Agenda) :
    Twin job g H o A (A.map g.task) := by
  have nothing : Twin job g (fun X => H (A ++ X)) (o.passAll A) [] [] := .nil _ _
  simpa using nothing.append

/-- A guide that tells more will do. -/
theorem agrees (h : Twin job g H o A B) (ha : g.Agrees depth next g')
    (hr : ∀ t ∈ A, t.Refers depth next) (hv : A.Holds (Procedure.Issued next))
    (hlen : o.frames.length ≤ depth) : Twin job g' H o A B := by
  induction h with
  | nil => exact .nil _ _
  | @cons t H o A B _ ih =>
    rw [← ha.task (hr t (List.mem_cons_self ..)) (hv t (List.mem_cons_self ..))]
    refine .cons t (ih (fun u hu => hr u (List.mem_cons_of_mem _ hu))
      (fun u hu => hv u (List.mem_cons_of_mem _ hu)) ?_)
    exact Nat.le_trans (o.length_pass_le t) hlen
  | reduced hb hd he _ ih =>
    refine .reduced hb (fun i hi => ?_) he (ih (fun u hu => hr u (List.mem_cons_of_mem _ hu))
      (fun u hu => hv u (List.mem_cons_of_mem _ hu)) hlen)
    rw [ha.place i (by omega)]
    exact hd i hi

theorem frame? (h : Twin job g H o A B) {k : Nat} (hk : A.frame? = some k) :
    B.frame? = some (g.place k) := by
  induction h with
  | nil => cases hk
  | @cons t H o A B _ ih =>
    cases t with
    | within => cases hk
    | leave | labelled | iterate | afterWhile | afterUntil | advance =>
      cases hk
      rfl
    | _ => exact ih hk
  | reduced => cases hk

end Twin

variable {m n : Machine} {s : Signal}

theorem resume_found (g : Guide) (c : LabelledClause) (target : Option NodeId) :
    LabelledClause.resume job
        { c with frame := g.place c.frame, activation := g.serial c.activation } target =
      List.map g.task <$> c.resume job target := by
  have steps (chain : List ChainStep) :
      (chain.map (·.task c.baseline)).map g.task = chain.map (·.task c.baseline) := by
    rw [List.map_map]
    refine List.map_congr_left fun step _ => ?_
    cases step <;> rfl
  cases target with
  | none => rfl
  | some unit =>
    simp only [LabelledClause.resume]
    split
    · rfl
    · rw [Checked.map_ok, List.map_append, steps]
      rfl

/-- What is left where a signal passed both agendas: it escapes from both, or a clause takes it in
both. -/
inductive Passed (job : Job) (g : Guide) (H : Agenda → NodeId → Nat → Prop) (o : Outline)
    (s : Signal) (A B : Agenda) (m n : Machine) : Prop where
  | escaped {s' : Signal} {m' n' : Machine} (hA : unwind job s A m = .escaped s' m')
      (hB : unwind job (g.signal s) B n = .escaped (g.signal s') n') (hm : g.Mirrors m' n')
  | resumed {j : Jump} {before after work B' : Agenda} {c : LabelledClause} {n' : Machine}
      (hs : s = .jump j) (hA : A = before ++ .labelled c :: after) (hb : ∀ t ∈ before, ¬ t.takes j)
      (hc : c.takes j) (hw : c.resume job j.target = .ok work)
      (hB : unwind job (g.signal s) B n = .resumed (work.map g.task ++ B') n')
      (hm : g.Mirrors (c.caught j (m.undo before)) n')
      (h : Twin job g (fun X => H (before ++ .labelled c :: X))
        ((o.passAll before).pass (.labelled c)) after B')

theorem Passed.cons {t : Task} {s' : Signal} {B' : Agenda} {m' n' : Machine}
    (h : Passed job g (fun X => H (t :: X)) (o.pass t) s' A B m' n')
    (hA : unwind job s (t :: A) m = unwind job s' A m')
    (hB : unwind job (g.signal s) B' n = unwind job (g.signal s') B n')
    (hj : ∀ j, s' = .jump j → s = .jump j ∧ ¬ t.takes j ∧ m' = t.undo m) :
    Passed job g H o s (t :: A) B' m n := by
  cases h with
  | escaped hA' hB' hm => exact .escaped (hA.trans hA') (hB.trans hB') hm
  | @resumed j before after work B'' c n'' hs hA' hb hc hw hB' hm h =>
    subst hs
    obtain ⟨rfl, ht, rfl⟩ := hj j rfl
    have hA : t :: A = (t :: before) ++ .labelled c :: after := by
      rw [hA']
      rfl
    refine .resumed rfl hA ?_ hc hw (hB.trans hB') hm h
    intro u hu
    rcases List.mem_cons.mp hu with rfl | hu
    · exact ht
    · exact hb u hu

theorem Mirrors.caught (h : g.Mirrors m n) (hn : Nested job.program n.frames.hollow)
    {c : LabelledClause} (hc : m.frames.depth = c.frame + 1) (j j' : Jump)
    (hj : j'.baseline = j.baseline) :
    g.Mirrors (c.caught j m) (LabelledClause.caught
      { c with frame := g.place c.frame, activation := g.serial c.activation } j' n) := by
  refine ⟨?_, h.store, h.transput, h.calls, ?_⟩
  · simp [LabelledClause.caught, h.stack, hj]
  · refine h.frames.truncate hn (fun i hi hlt => ?_) fun i hi hlt => by omega
    rcases Nat.lt_or_eq_of_le (Nat.le_of_lt_succ hi) with hlt | rfl
    · exact Nat.lt_succ_of_lt (h.frames.rising i c.frame hlt (by omega))
    · exact Nat.lt_succ_self _

theorem Mirrors.truncate (h : g.Mirrors m n) (hn : Nested job.program n.frames.hollow) {d : Nat}
    (hd : m.frames.depth = d + 1) :
    g.Mirrors { m with frames := m.frames.truncate d }
      { n with frames := n.frames.truncate (g.place d) } := by
  refine h.with_frames (h.frames.truncate hn (fun i hi _ => ?_) fun i hi hlt => ?_)
  · exact h.frames.rising i d hi (by omega)
  · obtain rfl : i = d := by omega
    exact Nat.le_refl _

/-- Frames above all those that are mirrored can be closed. -/
theorem Mirrors.drop (h : g.Mirrors m n) (hn : Nested job.program n.frames.hollow) {d : Nat}
    (hd : ∀ i < m.frames.depth, g.place i < d) :
    g.Mirrors m { n with frames := n.frames.truncate d } := by
  have : g.Maps (m.frames.truncate m.frames.depth) (n.frames.truncate d) :=
    h.frames.truncate hn (fun i hi _ => hd i hi) fun i hi hlt => by omega
  have whole : m.frames.truncate m.frames.depth = m.frames := by
    simp [FrameStack.truncate, FrameStack.depth]
  rw [whole] at this
  exact ⟨h.stack, h.store, h.transput, h.calls, this⟩

/-- A clause takes a jump in both machines or in none. -/
theorem Mirrors.takes_iff (hm : g.Mirrors m n) {c : LabelledClause} {j : Jump}
    (hc : c.activation < m.frames.nextSerial) (hj : j.frame < m.frames.nextSerial) :
    c.takes j ↔ LabelledClause.takes
      { c with frame := g.place c.frame, activation := g.serial c.activation }
      { j with frame := g.serial j.frame } :=
  and_congr_right' ⟨congrArg g.serial, fun he => hm.frames.serial_inj hj hc he⟩

/-- A signal comes to a running clause in both machines. A jump that the clause takes goes on with
the work of the clause, and one that it cannot go on with becomes a fault; what else there is
passes on. -/
theorem Passed.labelled {c : LabelledClause} (hm : g.Mirrors m n)
    (hn : Nested job.program n.frames.hollow) (hframe : m.frames.depth = c.frame + 1)
    (hc : c.activation < m.frames.nextSerial)
    (hj : ∀ j, s = .jump j → j.frame < m.frames.nextSerial)
    (h : Twin job g (fun X => H (.labelled c :: X)) (o.pass (.labelled c)) A B)
    (rest : ∀ (s : Signal) (m' n' : Machine), g.Mirrors m' n' →
      m'.frames.depth = m.frames.depth → m'.frames.nextSerial = m.frames.nextSerial →
      Nested job.program n'.frames.hollow →
      (∀ j, s = .jump j → j.frame < m.frames.nextSerial) →
      Passed job g (fun X => H (.labelled c :: X)) (o.pass (.labelled c)) s A B m' n') :
    Passed job g H o s (.labelled c :: A) (g.task (.labelled c) :: B) m n := by
  have passes := rest s m n hm rfl rfl hn hj
  cases s with
  | fault f => exact passes.cons rfl rfl fun j h => Signal.noConfusion h
  | jump j =>
    have taken := hm.takes_iff hc (hj j rfl)
    by_cases ht : c.takes j
    · have left := @unwind_jump_of_takes job j [] A c m (by simp) ht
      have right := @unwind_jump_of_takes job { j with frame := g.serial j.frame } [] B
        { c with frame := g.place c.frame, activation := g.serial c.activation } n (by simp)
        (taken.mp ht)
      have caught := hm.caught hn hframe j { j with frame := g.serial j.frame } rfl
      rw [resume_found] at right
      cases hw : c.resume job j.target with
      | ok work =>
        rw [hw] at right
        have hA : Task.labelled c :: A = [] ++ .labelled c :: A := rfl
        exact .resumed rfl hA (by simp) ht hw right caught h
      | error e =>
        rw [hw] at left right
        refine (rest (.fault e) _ _ caught ?_ rfl ?_ fun j h => Signal.noConfusion h).cons left
          right fun j h => Signal.noConfusion h
        · simp only [LabelledClause.caught, FrameStack.depth_truncate]
          omega
        · simp only [LabelledClause.caught, FrameStack.hollow_truncate]
          exact hn.take _
    · refine passes.cons (if_neg ht) (if_neg fun h => ht (taken.mpr h)) fun j' h => ⟨h, ?_, rfl⟩
      cases h
      exact ht

/-- A signal passes both agendas alike. -/
theorem Twin.passed (h : Twin job g H o A B) (hm : g.Mirrors m n)
    (hs : o.Sound job m.frames.nextSerial) (ha : Along Admits o A)
    (hlen : m.frames.depth = o.frames.length) (hn : Nested job.program n.frames.hollow)
    (hj : ∀ j, s = .jump j → j.frame < m.frames.nextSerial) : Passed job g H o s A B m n := by
  have faults (f : Fault) {P : Jump → Prop} (j : Jump) (h : Signal.fault f = .jump j) : P j :=
    Signal.noConfusion h
  induction h generalizing m n s with
  | nil H o => exact .escaped rfl rfl hm
  | @cons t H o A B h ih =>
    have hs' := hs.pass ha.1
    have passes {s : Signal} (hj : ∀ j, s = .jump j → j.frame < m.frames.nextSerial)
        (hlen : m.frames.depth = (o.pass t).frames.length) := ih hm hs' ha.2 hlen hn hj
    cases t with
    | leave d =>
      have hd : m.frames.depth = d + 1 := hlen.trans ha.1.1
      refine (ih (hm.truncate hn hd) hs' ha.2 ?_ ?_ hj).cons (by cases s <;> rfl)
        (by cases s <;> rfl) fun j h => ⟨h, id, rfl⟩
      · simp [FrameStack.depth_truncate, Outline.pass, hlen]
      · dsimp only
        rw [FrameStack.hollow_truncate]
        exact hn.take _
    | endCall =>
      refine (ih (m := { m with calls := m.calls.tail }) (n := { n with calls := n.calls.tail })
        ⟨hm.stack, hm.store, hm.transput, congrArg List.tail hm.calls, hm.frames⟩ hs' ha.2 hlen hn
        hj).cons (by cases s <;> rfl) (by cases s <;> rfl) fun j h => ⟨h, id, rfl⟩
    | settle node | within node =>
      cases s with
      | fault f =>
        refine (passes (s := .fault (f.locate (job.program.tree.span node) m.calls)) (faults _)
          hlen).cons rfl ?_ (faults _)
        rw [← hm.calls]
        rfl
      | jump j => exact (passes hj hlen).cons rfl rfl fun j h => ⟨h, id, rfl⟩
    | labelled c =>
      obtain ⟨-, hframe, f, hf, hserial, -⟩ := ha.1
      have issued : c.activation < m.frames.nextSerial := hserial ▸ hs.given _ f hf
      refine .labelled hm hn (hlen.trans hframe) issued hj h fun s m' n' hm' hd hnext hn' hj' => ?_
      rw [← hnext] at hj' hs'
      refine ih hm' hs' ha.2 ?_ hn' hj'
      exact hd.trans (hlen.trans (List.length_modify ..).symm)
    | _ =>
      exact (passes hj hlen).cons (by cases s <;> rfl) (by cases s <;> rfl) fun j h => ⟨h, id, rfl⟩
  | @reduced k b d ending H o A B hb hd he h ih =>
    have hn' : Nested job.program (n.frames.truncate d).hollow := by
      rw [FrameStack.hollow_truncate]
      exact hn.take _
    have drop := hm.drop hn fun i hi => hd i (by omega)
    have passes {s : Signal} (hj : ∀ j, s = .jump j → j.frame < m.frames.nextSerial) :=
      ih (n := { n with frames := n.frames.truncate d }) drop hs ha.2 hlen hn' hj
    have ends (s : Signal) (B : Agenda) :
        unwind job s (ending ++ .leave d :: .yields (job.program.tree.mode k) b :: B) n =
          unwind job s B { n with frames := n.frames.truncate d } := by
      rcases he with rfl | ⟨rfl, -⟩ <;> cases s <;> rfl
    cases s with
    | fault f =>
      refine (passes (s := .fault (f.locate (job.program.tree.span k) m.calls)) (faults _)).cons
        rfl ((ends _ _).trans ?_) (faults _)
      rw [← hm.calls]
      rfl
    | jump j => exact (passes hj).cons rfl (ends _ _) fun j h => ⟨h, id, rfl⟩

end Guide

end Algol68
