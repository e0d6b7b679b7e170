import Algol68.Proofs.Jump.Origin

/-! The labelled clauses that are running. A frame says that a labelled clause can be resumed in it
exactly as long as the end of that activation is on the agenda, and each such activation was
entered once, with the frames and calls with which it will end. -/

namespace Algol68

open Outline (Along Admits)

variable {job : Job}

namespace Outline

/-- A task takes frames away or makes them free, and nothing else. -/
theorem of_pass {o : Outline} {t : Task} {i : Nat} {f : Frame}
    (h : (o.pass t).frames[i]? = some f) :
    ∃ g, o.frames[i]? = some g ∧ f.serial = g.serial ∧
      ∀ r, f.resumption = some r → g.resumption = some r := by
  cases t with
  | leave depth =>
    simp only [pass, List.getElem?_take] at h
    split at h
    · exact ⟨f, h, rfl, fun _ hr => hr⟩
    · cases h
  | labelled c =>
    simp only [pass, List.getElem?_modify] at h
    obtain ⟨g, hg, rfl⟩ := Option.map_eq_some_iff.mp h
    refine ⟨g, hg, ?_, ?_⟩
    · split <;> rfl
    · intro r hr
      split at hr
      · cases hr
      · exact hr
  | _ => exact ⟨f, h, rfl, fun _ hr => hr⟩

theorem of_passAll {o : Outline} {A : Agenda} {i : Nat} {f : Frame}
    (h : (o.passAll A).frames[i]? = some f) :
    ∃ g, o.frames[i]? = some g ∧ f.serial = g.serial ∧
      ∀ r, f.resumption = some r → g.resumption = some r := by
  induction A generalizing o with
  | nil => exact ⟨f, h, rfl, fun _ hr => hr⟩
  | cons t A ih =>
    obtain ⟨g, hg, hs, hr⟩ := ih h
    obtain ⟨g', hg', hs', hr'⟩ := of_pass hg
    exact ⟨g', hg', hs.trans hs', fun r h => hr' r (hr r h)⟩

theorem frame_of_labelled {o : Outline} {before after : Agenda} {c : LabelledClause}
    (ha : Along Admits o (before ++ .labelled c :: after)) :
    ∃ f, o.frames[c.frame]? = some f ∧ f.serial = c.activation ∧
      f.resumption = some ⟨c.serial, c.baseline⟩ := by
  obtain ⟨-, -, f, hf, hs, hr⟩ := (along_append.mp ha).2.1
  obtain ⟨g, hg, hs', hr'⟩ := of_passAll hf
  exact ⟨g, hg, hs'.symm.trans hs, hr' _ hr⟩

/-- No two running clauses run in one activation. -/
theorem activation_ne {job : Job} {next : Nat} {o : Outline} {before between after : Agenda}
    {c d : LabelledClause} (hs : o.Sound job next)
    (ha : Along Admits o (before ++ .labelled c :: (between ++ .labelled d :: after))) :
    c.activation ≠ d.activation := by
  intro heq
  obtain ⟨-, hc⟩ := along_append.mp ha
  have hs' := (hs.passAll (along_append.mp ha).1)
  obtain ⟨-, -, f, hf, hfs, -⟩ := hc.1
  obtain ⟨g, hg, hgs, hgr⟩ := frame_of_labelled hc.2
  obtain ⟨g', hg', hgs', -⟩ := of_pass hg
  have index : c.frame = d.frame :=
    hs'.index_eq hf hg' (by rw [hfs, heq, ← hgs, hgs'])
  have vacated : g.resumption = none := by
    simp only [pass, List.getElem?_modify, ← index, hf, if_pos, Option.map_eq_map,
      Option.map_some, Option.some.injEq] at hg
    rw [← hg]
    rfl
  rw [vacated] at hgr
  cases hgr

/-- Word of a labelled clause is on a frame only as long as the clause runs in it, or for good. -/
theorem exists_labelled {o : Outline} {A : Agenda} (ha : Along Admits o A) {i : Nat} {f : Frame}
    {r : Resumption} (hf : o.frames[i]? = some f) (hr : f.resumption = some r) :
    (∃ before c after, A = before ++ .labelled c :: after ∧ c.frame = i ∧ c.activation = f.serial ∧
      c.serial = r.owner ∧ c.baseline = r.baseline) ∨ (o.passAll A).frames[i]? = some f := by
  induction A generalizing o with
  | nil => exact .inr hf
  | cons t A ih =>
    have goes (hf : (o.pass t).frames[i]? = some f) : (∃ before c after,
        t :: A = before ++ .labelled c :: after ∧ c.frame = i ∧ c.activation = f.serial ∧
          c.serial = r.owner ∧ c.baseline = r.baseline) ∨
        (o.passAll (t :: A)).frames[i]? = some f := by
      rcases ih ha.2 hf with ⟨before, c, after, rfl, h⟩ | h
      · exact .inl ⟨t :: before, c, after, rfl, h⟩
      · exact .inr h
    cases t with
    | leave depth =>
      by_cases hi : i < depth
      · exact goes (by simp [pass, hi, hf])
      · obtain ⟨hlen, hv⟩ := ha.1
        have hi' := (List.getElem?_eq_some_iff.mp hf).1
        have top : o.frames.length - 1 = i := by omega
        have := hv.top f (by rw [top]; exact hf)
        rw [hr] at this
        cases this
    | labelled c =>
      by_cases hi : c.frame = i
      · obtain ⟨-, -, g, hg, hgs, hgr⟩ := ha.1
        rw [hi, hf] at hg
        cases hg
        rw [hr] at hgr
        cases hgr
        exact .inl ⟨[], c, A, rfl, hi, hgs.symm, rfl, rfl⟩
      · exact goes (by simp [pass, hi, hf])
    | _ => exact goes hf

end Outline

/-- The activation `c` was entered in `m₀`, in front of `rest`, and has been running since: the
machine came to `m` doing nothing but the work of the clause, of which `before` is left in front
of its end. -/
structure LabelledClause.RunsFrom (job : Job) (c : LabelledClause) (m₀ : Machine) (enquiry : Bool)
    (rest before after : Agenda) (m : Machine) : Prop where
  entered : ∃ m₁ steps ending,
    (Task.clause c.serial enquiry).exec job m₀ = .ok (steps ++ .labelled c :: ending) m₁ ∧
      after = ending ++ rest ∧ c.EnteredIn m₀ m₁ ∧
      Runs job (steps ++ [.labelled c], m₁) (before ++ [.labelled c], m)
  outline : m.outline.passAll before = (m₀.announced ⟨c.serial, c.baseline⟩).outline

namespace LabelledClause.RunsFrom

variable {c : LabelledClause} {m₀ m m' : Machine} {enquiry : Bool}
  {rest before before' after : Agenda}

theorem step (h : c.RunsFrom job m₀ enquiry rest before after m)
    (hs : Does job (before ++ [.labelled c], m) (before' ++ [.labelled c], m'))
    (ho : m'.outline.passAll before' = m.outline.passAll before) :
    c.RunsFrom job m₀ enquiry rest before' after m' := by
  obtain ⟨m₁, steps, ending, he, ha, hin, hr⟩ := h.entered
  exact ⟨⟨m₁, steps, ending, he, ha, hin, hr.tail hs⟩, ho.trans h.outline⟩

end LabelledClause.RunsFrom

/-- Each running clause on an agenda was entered in a state with some property. -/
def Begun (job : Job) (P : Agenda → Machine → Prop) (A : Agenda) (m : Machine) : Prop :=
  ∀ before c after, A = before ++ .labelled c :: after → ∃ m₀ enquiry rest,
    P (.clause c.serial enquiry :: rest) m₀ ∧ c.RunsFrom job m₀ enquiry rest before after m

theorem labelled_notMem_of_plain {A : Agenda} (h : ∀ t ∈ A, t.plain) (c : LabelledClause) :
    .labelled c ∉ A := fun hc => absurd (h _ hc) (by simp [Task.plain])

/-- Behind plain tasks and the end of one clause, the end of a clause is that one or comes later. -/
theorem append_labelled_cases {A B before after : Agenda} {c d : LabelledClause}
    (hA : ∀ t ∈ A, t.plain) (h : A ++ .labelled c :: B = before ++ .labelled d :: after) :
    (before = A ∧ d = c ∧ after = B) ∨
      ∃ C, before = A ++ .labelled c :: C ∧ B = C ++ .labelled d :: after := by
  rcases List.append_eq_append_iff.mp h with ⟨C, rfl, hC⟩ | ⟨C, rfl, hC⟩
  · cases C with
    | nil =>
      cases hC
      exact .inl ⟨by simp, rfl, rfl⟩
    | cons t C =>
      obtain ⟨rfl, rfl⟩ := List.cons.inj hC
      exact .inr ⟨C, rfl, rfl⟩
  · cases C with
    | nil =>
      cases hC
      exact .inl ⟨by simp, rfl, rfl⟩
    | cons t C =>
      have ht : Task.labelled d = t := (List.cons.inj hC).1
      exact absurd (by simp [ht]) (labelled_notMem_of_plain hA d)

variable {units : NodeId → Prop} {P : Agenda → Machine → Prop} {A A' : Agenda} {m m' : Machine}

/-- The clauses that a task begins are begun in the state in which it is done. -/
theorem Begun.of_work {t : Task} {rest work before w : Agenda} {c : LabelledClause}
    (hu : P (t :: rest) m) (hc : Consistent job (t :: rest) m) (he : t.exec job m = .ok work m')
    (hw : work = before ++ .labelled c :: w) :
    ∃ m₀ enquiry rest', P (.clause c.serial enquiry :: rest') m₀ ∧
      c.RunsFrom job m₀ enquiry rest' before (w ++ rest) m' := by
  have mem : .labelled c ∈ work := by simp [hw]
  by_cases ht : ∃ node enquiry, t = .clause node enquiry
  · obtain ⟨node, enquiry, rfl⟩ := ht
    obtain ⟨hserial, hin, steps, ending, hwork, hsteps, hending⟩ :=
      Exec.wp_ok (Exec.clause_enters hc.sound hc.along.1 node enquiry) he c mem
    rcases append_labelled_cases hsteps (hwork.symm.trans hw) with ⟨rfl, -, rfl⟩ | ⟨C, -, hC⟩
    · subst hserial
      refine ⟨m, enquiry, rest, hu, ⟨m', before, w, ?_, rfl, hin, .refl⟩, ?_⟩
      · rw [← hw]
        exact he
      · rw [Outline.passAll_of_plain hsteps, hin.machine, hin.baseline]
    · exact absurd (by simp [hC]) (labelled_notMem_of_plain hending c)
  · by_cases hj : ∃ node id, t = .elaborate node ∧ job.program.tree.kind node = .jump id
    · obtain ⟨node, id, rfl, hk⟩ := hj
      have raised : Exec.wp (Exec.elaborate job node) (fun _ _ => False) (fun _ _ => True) m := by
        simp only [Exec.elaborate, hk, Exec.wp_bind, Exec.wp_depth]
        exact Exec.wp_mono (Exec.jump_still id) (fun _ _ h => h) fun _ _ _ => trivial
      exact (Exec.wp_ok raised he).elim
    · have calm := @Exec.exec_calm job _ (fun node enquiry h => ht ⟨node, enquiry, h⟩)
        (fun node id h hk => hj ⟨node, id, h, hk⟩) m
      exact absurd mem (Exec.wp_ok calm he c)

/-- A clause that goes on running was begun where it was begun before. -/
theorem Begun.carry (before before' : Agenda) {after : Agenda} {c : LabelledClause}
    (hb : Begun job P (before ++ .labelled c :: after) m)
    (hs : Does job (before ++ [.labelled c], m) (before' ++ [.labelled c], m'))
    (ho : m'.outline.passAll before' = m.outline.passAll before) :
    ∃ m₀ enquiry rest, P (.clause c.serial enquiry :: rest) m₀ ∧
      c.RunsFrom job m₀ enquiry rest before' after m' := by
  obtain ⟨m₀, enquiry, rest, hu, hr⟩ := hb before c after rfl
  exact ⟨m₀, enquiry, rest, hu, hr.step hs ho⟩

theorem Does.done_append {t : Task} {work b : Agenda} (he : t.exec job m = .ok work m')
    (B : Agenda) : Does job (t :: (b ++ B), m) (work ++ b ++ B, m') := by
  rw [List.append_assoc]
  exact .done he

theorem Begun.step (hu : P A m) (hc : Consistent job A m) (hb : Begun job P A m)
    (hs : Does job (A, m) (A', m')) : Begun job P A' m' := by
  intro before c after hA'
  cases hs with
  | @done t work rest _ _ he =>
    have old {b : Agenda} (hrest : rest = b ++ .labelled c :: after) (hbefore : before = work ++ b) :
        ∃ m₀ enquiry rest', P (.clause c.serial enquiry :: rest') m₀ ∧
          c.RunsFrom job m₀ enquiry rest' before after m' := by
      subst hrest hbefore
      have hp : Consistent job (t :: b) m := Consistent.of_append (B := .labelled c :: after) hc
      exact Begun.carry (t :: b) _ hb (.done_append he _)
        (hp.step (Does.done he)).2.1
    rcases List.append_eq_append_iff.mp hA' with ⟨b, hbefore, hrest⟩ | ⟨w, hwork, hw⟩
    · exact old hrest hbefore
    · cases w with
      | nil => exact old (b := []) hw.symm (by simpa using hwork.symm)
      | cons u w =>
        obtain ⟨rfl, rfl⟩ := List.cons.inj hw
        exact Begun.of_work hu hc he hwork
  | @resumed t rest _ _ m₁ _ s he hx =>
    obtain ⟨j, b, d, a, work, rfl, rfl, hb', hd, hw, hA, rfl⟩ := unwind_resumed hx
    obtain ⟨steps, rfl, hsteps⟩ := LabelledClause.resume_plain hw
    subst hA
    -- the step as it is in front of anything that follows `b` and the clause that goes on
    have goes (B : Agenda) : Does job (t :: (b ++ .labelled d :: B), m)
        (steps ++ .labelled d :: B, d.caught j (m₁.undo b)) := by
      refine .resumed he ?_
      rw [unwind_jump_of_takes hb' hd, hw]
      simp
    rw [List.append_assoc] at hA'
    rcases append_labelled_cases hsteps hA' with ⟨rfl, rfl, rfl⟩ | ⟨C, rfl, rfl⟩
    · refine Begun.carry (t :: b) _ hb (goes []) ?_
      obtain ⟨hm₁, ho⟩ := hc.of_error he
      rw [hm₁.caught, Outline.passAll_of_plain hsteps, ← ho, Outline.passAll_cons,
        Consistent.pass_of_error he]
    · have hp : Consistent job (t :: (b ++ .labelled d :: C)) m := by
        refine Consistent.of_append (B := .labelled c :: after) ?_
        simpa using hc
      exact Begun.carry (t :: (b ++ .labelled d :: C)) (steps ++ .labelled d :: C)
        (by simpa using hb) (by simpa using goes (C ++ [.labelled c])) (hp.step (goes C)).2.1

/-- No clause runs before the first unit of a run is begun. -/
theorem Begun.start (unit : NodeId) : Begun job P [.unit unit] m := by
  intro before c after hA
  rcases List.append_eq_cons_iff.mp hA.symm with ⟨-, h⟩ | ⟨b, -, h⟩
  · cases h
  · simp at h

/-- Each running clause of a state was entered in an earlier one. -/
theorem Underway.begun (h : Underway job units A m) : Begun job (Underway job units) A m := by
  induction h with
  | run | resume => exact .start _
  | step h hs ih => exact ih.step h h.consistent.1 hs

end Algol68
