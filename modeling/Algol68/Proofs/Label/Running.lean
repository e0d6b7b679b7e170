import Algol68.Proofs.Label.Harbour

/-! The clause that owns a label runs wherever a jump to the label may be executed. Every step keeps this:
the work that a task leaves is done in activations inside of those the task was done in, a routine is
entered from the frames where its value was elaborated, and when the clause ends, its activation is
closed before anything else is done. -/

namespace Algol68

open Outline (Along Admits)
open Relation (ReflTransGen)

variable {job : Job} {starts : NodeId → Prop} {H : Harbour} {A A' rest work : Agenda}
  {m m' : Machine} {t : Task} {L L' : Lexicon}

namespace Exec

theorem closed_opens (hs : m.outline.Sound job m.frames.nextSerial) {n serial : NodeId}
    {scope : ScopeId} (hk : job.program.tree.kind n = .closed scope serial) :
    wp (elaborate job n)
      (fun work m' => work = [.clause serial false, .leave m.frames.depth,
          .yields (job.program.tree.mode n) m.stack.size] ∧
        m'.outline = m.outline.opened (job.activation scope m.outline.top m.frames.nextSerial))
      (fun _ _ => True) m := by
  simp only [elaborate, hk, enclosed, wp_bind, wp_depth]
  refine wp_enter_opened hs scope (fun _ _ _ => trivial) fun m' ho _ => ?_
  exact ⟨rfl, ho⟩

theorem clause_begins (hs : m.outline.Sound job m.frames.nextSerial) (hv : m.outline.Vacant)
    {n : NodeId} {scope : ScopeId} {range : NodeRange}
    (hk : job.program.tree.kind n = .serialClause scope range)
    (hl : (job.program.scopes.get scope).hasLabels) (enquiry : Bool) :
    wp (clause job n enquiry)
      (fun work m' => ∃ steps c ending, work = steps ++ .labelled c :: ending ∧
        (∀ t ∈ steps, t.plain) ∧ (ending = [] ∨ ∃ b, ending = [.cut b]) ∧
        c.items = job.program.tree.list range ∧ m' = m.announced ⟨n, m.stack.size⟩)
      (fun _ _ => False) m := by
  simp only [clause, hk, hl, if_true, wp_bind, wp_depth]
  refine wp_mono (wp_announce hs hv n _ _) ?_ fun _ _ h => h.elim
  rintro c m' ⟨hc, hm, -⟩
  refine ⟨_, c, _, rfl, plain_chain _ _, ?_, by rw [hc], hm⟩
  split
  · exact .inr ⟨_, rfl⟩
  · exact .inl rfl

end Exec

/-- A running clause with labels was begun with its own items, and only its own ending follows it. -/
theorem LabelledClause.RunsFrom.begins {c : LabelledClause} {m₀ : Machine} {enquiry : Bool}
    {before after : Agenda} (h : c.RunsFrom job m₀ enquiry rest before after m)
    (hs : m₀.outline.Sound job m₀.frames.nextSerial) (hv : m₀.outline.Vacant) {scope : ScopeId}
    {range : NodeRange} (hk : job.program.tree.kind c.serial = .serialClause scope range)
    (hl : (job.program.scopes.get scope).hasLabels) :
    c.items = job.program.tree.list range ∧ (after = rest ∨ ∃ b, after = .cut b :: rest) := by
  obtain ⟨m₁, steps, ending, he, rfl, -⟩ := h.entered
  obtain ⟨steps', c', ending', hwork, hplain, hending, hitems, -⟩ :=
    Exec.wp_ok (Exec.clause_begins hs hv hk hl enquiry) he
  have hplain' : ∀ u ∈ ending', u.plain := by
    rcases hending with rfl | ⟨b, rfl⟩ <;> simp [Task.plain]
  rcases append_labelled_cases hplain hwork.symm with ⟨-, rfl, rfl⟩ | ⟨C, -, hC⟩
  · refine ⟨hitems, ?_⟩
    rcases hending with rfl | ⟨b, rfl⟩
    · exact .inl rfl
    · exact .inr ⟨b, rfl⟩
  · exact absurd (by simp [hC]) (labelled_notMem_of_plain hplain' c)

namespace Harbour

/-- While work is left that brings the frames back, the clause runs at the places where it ran. -/
theorem Moored.of_passAll {p : Program} {fs : List Frame} {o : Outline} {k : Nat}
    (hm : H.Moored p fs k) (hn : Nested p fs) (hk : k < fs.length)
    (ho : (o.passAll A).frames = fs) : H.Moored p o.frames k := by
  have hf : fs[k]? = some fs[k] := List.getElem?_eq_getElem hk
  have same := Outlast.passAll (fs[k].serial + 1) o A k _ (by rw [ho]; exact hf)
    (Nat.lt_succ_self _)
  rw [ho] at same
  refine hm.of_same hn same.symm fun k f r _ hf _ hr _ => ?_
  rw [← ho] at hf
  obtain ⟨g, hg, -, hgr⟩ := Outline.of_passAll hf
  exact ⟨g, hg, hgr r hr⟩

/-- The work of a task that is done where the clause runs is done where the clause runs. -/
theorem moored_along (hc : Consistent job (t :: rest) m) (hn : Nested job.program m.frames.hollow)
    (he : t.exec job m = .ok work m')
    (hr : ∀ scope environ args body, t ≠ .enterRoutine scope environ args body)
    (hm : H.Moored job.program m.frames.hollow m.outline.top) :
    Along (fun o _ => H.Moored job.program o.frames o.top) m'.outline work := by
  by_cases hends : (∃ depth, t = .leave depth) ∨ ∃ c, t = .labelled c
  · rcases hends with ⟨depth, rfl⟩ | ⟨c, rfl⟩ <;> cases he <;> trivial
  have hpass : (m.outline.pass t).frames = m.frames.hollow := by
    cases t with
    | leave depth => exact absurd (.inl ⟨depth, rfl⟩) hends
    | labelled c => exact absurd (.inr ⟨c, rfl⟩) hends
    | _ => rfl
  have turns := (Exec.wp_ok (Exec.exec_turns hc.sound hc.along.1) he).stays_or_opens
    (fun depth ht => hends (.inl ⟨depth, ht⟩)) hr
  have hp := (hc.exec he).2.1
  have hpos : 0 < m.frames.hollow.length := hc.sound.length_pos
  have htop : m.outline.top = m.frames.hollow.length - 1 := rfl
  refine Outline.along_of_splits fun before u after hw => ?_
  have hend : ((m'.outline.passAll before).passAll (u :: after)).frames = m.frames.hollow := by
    rw [← Outline.passAll_append, ← hw, hp, hpass]
  have hge := (m'.outline.passAll before).passAll_length_le (u :: after)
  have hle := m'.outline.passAll_length_le before
  rw [hend] at hge
  have still : H.Moored job.program (m'.outline.passAll before).frames m.outline.top :=
    hm.of_passAll hn (by omega) hend
  -- where no frame is open but those that were, the innermost one is the same
  have unopened (hlen : (m'.outline.passAll before).frames.length = m.frames.hollow.length) :
      H.Moored job.program (m'.outline.passAll before).frames (m'.outline.passAll before).top := by
    have : (m'.outline.passAll before).top = m.outline.top := by rw [htop, Outline.top, hlen]
    rw [this]
    exact still
  rcases turns with hstays | ⟨f, hf, hlink, -, -⟩
  · have hlen : m'.outline.frames.length = m.frames.hollow.length := by
      simpa [Machine.outline] using congrArg List.length hstays.keys
    exact unopened (by omega)
  · have hlen : m'.outline.frames.length = m.frames.hollow.length + 1 := by
      simp [Machine.outline, hf]
    by_cases hlast : (m'.outline.passAll before).frames.length = m.frames.hollow.length
    · exact unopened hlast
    · have htop' : (m'.outline.passAll before).top = m.frames.hollow.length := by
        simp only [Outline.top]
        omega
      have hg : (m'.outline.passAll before).frames[m.frames.hollow.length]? =
          some (m'.outline.passAll before).frames[m.frames.hollow.length] :=
        List.getElem?_eq_getElem (by omega)
      have same := Outlast.passAll _ m'.outline before _ _ hg (Nat.lt_succ_self _)
      rw [htop']
      refine still.of_leads (.single (same.link (Nat.lt_succ_self _) ?_))
      exact ⟨f, by simp [Machine.outline, hf], hlink⟩

theorem moored_routine (hn : Nested job.program m.frames.hollow) {scope : ScopeId} {environ : Nat}
    {args : List Value} {body : NodeId} (hlt : environ < m.frames.hollow.length)
    (he : (Task.enterRoutine scope environ args body).exec job m = .ok work m')
    (hm : H.Moored job.program m.frames.hollow environ) :
    H.Moored job.program m'.frames.hollow m'.outline.top := by
  obtain ⟨f, hf, hlink, -, -⟩ := Exec.wp_ok (Exec.enterRoutine_opens_at scope environ args body) he
  have htop : m'.outline.top = m.frames.hollow.length := by simp [Outline.top, Machine.outline, hf]
  rw [htop, hf]
  exact hm.push hn hlink hlt

theorem moored_announced (hs : H.Awaits job.program H.serial) {f : Frame}
    (hf : m.outline.frames[m.outline.top]? = some f) (hscope : f.scope = H.scope job.program) (b : Nat) :
    H.Moored job.program (m.announced ⟨H.serial, b⟩).frames.hollow
      (m.announced ⟨H.serial, b⟩).outline.top := by
  have ho := m.announced_outline ⟨H.serial, b⟩
  have hframes : (m.announced ⟨H.serial, b⟩).frames.hollow = _ := congrArg Outline.frames ho
  have htop : m.outline.top = m.frames.depth - 1 := by simp [Outline.top, Machine.outline]
  rw [ho, hframes]
  have htop' : Outline.top { m.outline with
      frames := m.outline.frames.modify (m.frames.depth - 1) (Frame.announce ⟨H.serial, b⟩) } =
      m.frames.depth - 1 := by simp [Outline.top, Machine.outline]
  refine ⟨hs, m.frames.depth - 1, f.announce ⟨H.serial, b⟩, b, by rw [htop'], ?_, hscope, rfl⟩
  rw [htop] at hf
  simp [hf]

theorem Guards.of_moored {o : Outline} (h : H.Moored job.program o.frames o.top) :
    H.Guards job.program o t := fun _ _ _ => h

theorem Guards.of_only {o : Outline} (h : t.Only fun n => ¬ H.Awaits job.program n) :
    H.Guards job.program o t := fun n hn ha => absurd ha (h n hn)

theorem Guards.of_parts {o : Outline} (h : t.parts = []) : H.Guards job.program o t := by
  intro n hn
  rw [h] at hn
  cases hn

theorem Settled.tail (h : H.Settled job.program (t :: rest) m) :
    Along (H.Guards job.program) (m.outline.pass t) rest := by
  rcases h with h | ⟨⟨_, _, hA, -⟩, h⟩
  · exact h.2
  · cases hA
    exact h

/-- Where a jump to the label stands in what the next task evaluates, the clause runs or is about to
begin. -/
theorem Settled.head (h : H.Settled job.program (t :: rest) m) {n : NodeId} (hn : n ∈ t.parts)
    (ha : H.Awaits job.program n) :
    H.Moored job.program m.frames.hollow m.outline.top ∨ H.Opening job.program (t :: rest) m := by
  rcases h with h | ⟨h, -⟩
  · exact .inl (h.1 n hn ha)
  · exact .inr h

/-- A state in which the clause runs wherever a jump to the label may be executed. -/
structure Kept (H : Harbour) (job : Job) (starts : NodeId → Prop) (A : Agenda) (m : Machine)
    (L : Lexicon) : Prop where
  settled : H.Settled job.program A m
  begun : Begun job (fun A m => H.Settled job.program A m ∧ ∃ L, Recorded job starts A m L) A m
  held : ∀ text environ V, L.held text environ V → H.Awaits job.program text →
    m.frames.isLive environ → H.Moored job.program m.frames.hollow environ.index ∨
      Leaving A ∧ m.frames.depth = environ.index + 1
  away : ∀ text environ V, L.held text environ V → H.Awaits job.program text → environ.index ≠ 0

section

variable (hw : job.program.WellScoped starts) (hj : job.program.JumpsOutward starts)
  (hp : H.Proper job.program starts)

include hp

/-- When the clause has ended, its activation is closed. -/
theorem Kept.leaving {c : LabelledClause} (h : H.Kept job starts (.labelled c :: rest) m L)
    (hc : c.serial = H.serial) (hs : H.Awaits job.program H.serial) {f : Frame}
    (hf : m.frames.hollow[c.frame]? = some f) (hscope : f.scope = H.scope job.program) :
    Leaving rest := by
  obtain ⟨m₀, enquiry, rest₀, ⟨hsettled, L₀, hrec⟩, hruns⟩ := h.begun [] c rest rfl
  obtain ⟨m₁, steps, ending, -, -, hin, -⟩ := hruns.entered
  have hcons := hrec.state.consistent
  have hvacant : m₀.outline.Vacant := hcons.along.1
  have htop : m₀.outline.top = m₀.frames.depth - 1 := by simp [Outline.top, Machine.outline]
  -- the clause was entered in the frame that is innermost now
  obtain ⟨g, hg, hgs⟩ : ∃ g, m₀.frames.hollow[m₀.outline.top]? = some g ∧ g.scope = f.scope := by
    have houtline : m.outline = _ := hruns.outline
    rw [Machine.announced_outline] at houtline
    have hframes : m.frames.hollow = _ := congrArg Outline.frames houtline
    rw [hframes, hin.frame, ← htop] at hf
    obtain ⟨g, hg, hgf⟩ := Option.map_eq_some_iff.mp ((List.getElem?_modify ..).symm.trans hf)
    rw [if_pos rfl] at hgf
    exact ⟨g, hg, by rw [← hgf]; rfl⟩
  rw [hc] at hsettled hcons hrec
  rcases hsettled.head (List.mem_singleton_self _) hs with hmoored | ⟨_, _, hA, -⟩
  · -- not in it, nor in one of the same range
    obtain ⟨-, k, x, b, hl, hx, hxs, hxr⟩ := hmoored
    have := hrec.state.nested.eq_of_scope hl .refl hx hg (by rw [hxs, hgs, hscope])
    subst this
    have hnone := hvacant.top x hx
    rw [hxr] at hnone
    cases hnone
  · obtain ⟨range, hk⟩ := hp.serial
    obtain ⟨-, hafter⟩ := hruns.begins hcons.sound hvacant (hc ▸ hk) hp.labelled
    cases hA
    rcases hafter with rfl | ⟨b, rfl⟩
    · exact ⟨_, _, .inl rfl⟩
    · exact ⟨_, _, .inr ⟨b, rfl⟩⟩

theorem Settled.entered (hc : Consistent job (.elaborate H.closed :: rest) m)
    (h : H.Settled job.program (.elaborate H.closed :: rest) m)
    (he : (Task.elaborate H.closed).exec job m = .ok work m') :
    H.Settled job.program (work ++ rest) m' := by
  obtain ⟨rfl, ho⟩ := Exec.wp_ok (Exec.closed_opens hc.sound hp.closed) he
  have htail := h.tail
  have hpass := (hc.exec he).2.1
  rw [← hpass] at htail
  have along : Along (H.Guards job.program) m'.outline (.leave m.frames.depth ::
      .yields (job.program.tree.mode H.closed) m.stack.size :: rest) :=
    ⟨.of_parts rfl, .of_parts rfl, htail⟩
  by_cases hs : H.Awaits job.program H.serial
  · have htop : m'.outline.top = m.frames.depth := by
      rw [ho, Outline.opened_top]
      simp [Machine.outline]
    refine .inr ⟨⟨.yields (job.program.tree.mode H.closed) m.stack.size :: rest,
      job.activation (H.scope job.program) m.outline.top m.frames.nextSerial, ?_, ?_, rfl⟩, along⟩
    · rw [htop]
      rfl
    · rw [ho, Outline.opened_top]
      simp [Outline.opened]
  · refine .inl ⟨fun n hn ha => ?_, along⟩
    rw [List.mem_singleton.mp hn] at ha
    exact absurd ha hs

theorem Settled.begun {enquiry : Bool} (hc : Consistent job (.clause H.serial enquiry :: rest) m)
    (hs : H.Awaits job.program H.serial) {f : Frame}
    (hf : m.outline.frames[m.outline.top]? = some f) (hscope : f.scope = H.scope job.program)
    (he : (Task.clause H.serial enquiry).exec job m = .ok work m') :
    Along (H.Guards job.program) m'.outline work := by
  obtain ⟨range, hk⟩ := hp.serial
  obtain ⟨steps, c, ending, rfl, hplain, hending, -, rfl⟩ :=
    Exec.wp_ok (Exec.clause_begins hc.sound hc.along.1 hk hp.labelled enquiry) he
  have hm := moored_announced hs hf hscope m.stack.size
  rw [Outline.along_append, Outline.passAll_of_plain hplain]
  refine ⟨Outline.along_of_forall hplain fun _ _ => .of_moored hm, .of_moored hm, ?_⟩
  rcases hending with rfl | ⟨b, rfl⟩
  · trivial
  · exact ⟨.of_parts rfl, trivial⟩

/-- The body of a routine is evaluated where the value that is called was elaborated. -/
theorem Kept.guards_routine {scope : ScopeId} {environ : Nat} {args : List Value} {body : NodeId}
    (hrec : Recorded job starts (.enterRoutine scope environ args body :: rest) m L)
    (h : H.Kept job starts (.enterRoutine scope environ args body :: rest) m L)
    (he : (Task.enterRoutine scope environ args body).exec job m = .ok work m') :
    Along (H.Guards job.program) m'.outline work := by
  have hc := hrec.state.consistent
  obtain ⟨s, r, params, f, -, hk, -, hf, ⟨V, hV⟩, -⟩ := hrec.state.placed.1
  have hlt : environ < m.frames.depth := by simpa [Machine.outline, Admits] using hc.along.1
  obtain ⟨-, rfl⟩ := Exec.wp_ok (Exec.enterRoutine_opens hc.sound scope environ args body hlt) he
  refine ⟨fun n hn ha => ?_, .of_parts rfl, trivial⟩
  rw [List.mem_singleton.mp hn] at ha
  have hlive : m.frames.isLive ⟨environ, f.serial⟩ := FrameStack.isLive_iff.mpr ⟨f, hf, rfl⟩
  rcases h.held r _ V hV (hp.awaits_routine ha hk) hlive with hm | ⟨⟨_, _, hA⟩, -⟩
  · exact moored_routine hrec.state.nested (by simpa using hlt) he hm
  · rcases hA with hA | ⟨b, hA⟩ <;> cases hA

/-- Work outside of the clause does not come to a part in which a jump to the label stands. -/
theorem guards_elsewhere (hc : Consistent job (t :: rest) m) (he : t.exec job m = .ok work m')
    (hclosed : t ≠ .elaborate H.closed)
    (hroutine : ∀ scope environ args body, t ≠ .enterRoutine scope environ args body)
    (only : t.Only fun n => ¬ H.Awaits job.program n) :
    Along (H.Guards job.program) m'.outline work := by
  have hjump (n : NodeId) (id : LabelId) (ht : t = .elaborate n)
      (hk : job.program.tree.kind n = .jump id) : False := by
    subst ht
    have raised : Exec.wp (Exec.elaborate job n) (fun _ _ => False) (fun _ _ => True) m := by
      simp only [Exec.elaborate, hk, Exec.wp_bind, Exec.wp_depth]
      exact Exec.wp_mono (Exec.jump_still id) (fun _ _ h => h) fun _ _ _ => trivial
    exact Exec.wp_ok raised he
  have confined := Exec.wp_ok (Exec.exec_confined hp.spreads hc.sound hc.truthful hc.along.1 only
    (fun n ht hs => hclosed (by rw [ht, hs])) (fun n id ht hk => hjump n id ht hk) hroutine) he
  refine Outline.along_of_splits fun before u after hw => .of_only (confined u ?_)
  simp [hw]

theorem Kept.settled_done (hrec : Recorded job starts (t :: rest) m L)
    (h : H.Kept job starts (t :: rest) m L) (he : t.exec job m = .ok work m') :
    H.Settled job.program (work ++ rest) m' := by
  have hc := hrec.state.consistent
  by_cases hclosed : t = .elaborate H.closed
  · subst hclosed
    exact h.settled.entered hp hc he
  have hwork : Along (H.Guards job.program) m'.outline work := by
    by_cases hroutine : ∃ scope environ args body, t = .enterRoutine scope environ args body
    · obtain ⟨scope, environ, args, body, rfl⟩ := hroutine
      exact h.guards_routine hp hrec he
    have hroutine (scope environ args body) (ht : t = .enterRoutine scope environ args body) :
        False := hroutine ⟨scope, environ, args, body, ht⟩
    by_cases hparts : ∃ n ∈ t.parts, H.Awaits job.program n
    · obtain ⟨n, hn, ha⟩ := hparts
      rcases h.settled.head hn ha with hm | ⟨rest', f, hA, hf, hscope⟩
      · have along := moored_along hc hrec.state.nested he hroutine hm
        exact along.mono fun _ _ h => .of_moored h
      · cases hA
        rw [List.mem_singleton.mp hn] at ha
        exact Settled.begun hp hc ha hf hscope he
    · exact guards_elsewhere hp hc he hclosed hroutine fun n hn ha => hparts ⟨n, hn, ha⟩
  refine .inl (Outline.along_append.mpr ⟨hwork, ?_⟩)
  rw [(hc.exec he).2.1]
  exact h.settled.tail

/-- Where the value of a routine text is made, its environ is found inside of the clause. -/
theorem Kept.moored_environ (hw : job.program.WellScoped starts)
    (hj : job.program.JumpsOutward starts) {text : NodeId} {scope : ScopeId} {params : Nat}
    {body : NodeId} {environ : FrameHandle}
    (hrec : Recorded job starts (.elaborate text :: rest) m L)
    (h : H.Kept job starts (.elaborate text :: rest) m L)
    (hk : job.program.tree.kind text = .routineText scope params body)
    (he : (do m.frames.handle (← m.frames.resolve (job.program.environLevel text))) = .ok environ)
    (ha : H.Awaits job.program text) : H.Moored job.program m.frames.hollow environ.index := by
  obtain ⟨s, hs⟩ := hrec.state.placed.1
  have hn := hrec.state.nested
  obtain ⟨k, f, hr, hl, hf, -, hsup⟩ := hs.environ hw hj hk hn
  have htop : m.outline.top = m.frames.depth - 1 := by simp [Outline.top, Machine.outline]
  have hindex : environ.index = k := by
    rw [FrameStack.hollow_getElem?] at hf
    obtain ⟨x, hx, rfl⟩ := Option.map_eq_some_iff.mp hf
    simp only [hr, Bind.bind, Except.bind, FrameStack.handle, hx, Except.ok.injEq] at he
    rw [← he]
  rw [hindex]
  rcases h.settled.head (List.mem_singleton_self text) ha with hm | ⟨_, _, hA, -⟩
  · refine hm.of_reaches hn (htop ▸ hl) (hsup _ ?_)
    exact hp.needs hw hs.stands (by simp [hk, Program.standings]) ha (ha.body hk)
  · cases hA

omit hp in
theorem Moored.done (hc : Consistent job (t :: rest) m) (hn : Nested job.program m.frames.hollow)
    (he : t.exec job m = .ok work m') (ht : ∀ c, t ≠ .labelled c) {i : Nat}
    (hm : H.Moored job.program m.frames.hollow i) (hi : i < m'.frames.hollow.length)
    (same : SameBelow (i + 1) m.frames.hollow m'.frames.hollow) :
    H.Moored job.program m'.frames.hollow i := by
  refine hm.of_same hn same fun k f r hk hf _ hr _ => ?_
  by_cases hleave : ∃ depth, t = .leave depth
  · obtain ⟨depth, rfl⟩ := hleave
    cases he
    have hf' : (m.frames.truncate depth).hollow = m.frames.hollow.take depth := by simp
    change ∃ y, (m.frames.truncate depth).hollow[k]? = some y ∧ _
    change i < (m.frames.truncate depth).hollow.length at hi
    rw [hf', List.length_take] at hi
    exact ⟨f, by rw [hf', List.getElem?_take_of_lt (by omega)]; exact hf, hr⟩
  · have hpass : (m.outline.pass t).frames = m.frames.hollow := by
      cases t with
      | leave depth => exact absurd ⟨depth, rfl⟩ hleave
      | labelled c => exact absurd rfl (ht c)
      | _ => rfl
    rw [← hpass, ← (hc.exec he).2.1] at hf
    obtain ⟨g, hg, -, hgr⟩ := Outline.of_passAll hf
    exact ⟨g, hg, hgr r hr⟩

/-- When a clause ends, only its own activation changes. -/
theorem Kept.moored_labelled {c : LabelledClause} (hrec : Recorded job starts (.labelled c :: rest) m L)
    (h : H.Kept job starts (.labelled c :: rest) m L)
    (he : (Task.labelled c).exec job m = .ok work m') {i : Nat}
    (hm : H.Moored job.program m.frames.hollow i) (hi : i < m.frames.hollow.length) :
    H.Moored job.program m'.frames.hollow i ∨ Leaving (work ++ rest) ∧ m'.frames.depth = i + 1 := by
  have hc := hrec.state.consistent
  obtain ⟨-, hlen, g, hg, -, hgr⟩ := hc.along.1
  have hlen : m.frames.hollow.length = c.frame + 1 := hlen
  cases he
  have hf : (m.frames.modify c.frame Frame.vacate).hollow =
      m.frames.hollow.modify c.frame Frame.vacate :=
    FrameStack.hollow_modify _ _ Frame.hollow_vacate
  by_cases hlast : i = c.frame ∧ g.scope = H.scope job.program ∧ c.serial = H.serial
  · obtain ⟨rfl, hscope, hserial⟩ := hlast
    refine .inr ⟨h.leaving hp hserial hm.1 hg hscope, ?_⟩
    change (m.frames.modify c.frame Frame.vacate).depth = _
    rw [← FrameStack.hollow_length, hf, List.length_modify, hlen]
  · left
    change H.Moored job.program (m.frames.modify c.frame Frame.vacate).hollow i
    rw [hf]
    refine hm.of_same hrec.state.nested (SameBelow.modify _ _ _ fun _ => rfl) ?_
    intro k f r hk hf' hscope hr hr'
    by_cases hkc : k = c.frame
    · subst hkc
      cases (show m.frames.hollow[c.frame]? = some g from hg).symm.trans hf'
      cases hgr.symm.trans hr
      exact absurd ⟨by omega, hscope, hr'⟩ hlast
    · exact ⟨f, by simp [Ne.symm hkc, hf'], hr⟩

theorem Kept.held_done (hrec : Recorded job starts (t :: rest) m L)
    (h : H.Kept job starts (t :: rest) m L) (he : t.exec job m = .ok work m') {text : NodeId}
    {environ : FrameHandle} {V : View} (hV : L.held text environ V)
    (ha : H.Awaits job.program text) (hlive : m'.frames.isLive environ) :
    H.Moored job.program m'.frames.hollow environ.index ∨
      Leaving (work ++ rest) ∧ m'.frames.depth = environ.index + 1 := by
  have hc := hrec.state.consistent
  have hlt := (hrec.fits.held text environ V hV).1
  have outlast := (Exec.wp_ok (Exec.exec_turns hc.sound hc.along.1) he).outlast
  have hlive₀ : m.frames.isLive environ := by
    by_contra hl
    rw [outlast.stale hlt (by simpa using hl)] at hlive
    cases hlive
  obtain ⟨x, hx, hxs⟩ := FrameStack.isLive_iff.mp hlive
  obtain ⟨y, hy, -⟩ := FrameStack.isLive_iff.mp hlive₀
  have hi : environ.index < m'.frames.hollow.length := (List.getElem?_eq_some_iff.mp hx).1
  rcases h.held text environ V hV ha hlive₀ with hm | ⟨⟨i, rest', hA⟩, hdepth⟩
  · by_cases hlabelled : ∃ c, t = .labelled c
    · obtain ⟨c, rfl⟩ := hlabelled
      exact h.moored_labelled hp hrec he hm (List.getElem?_eq_some_iff.mp hy).1
    · have same := outlast environ.index x hx (by rw [hxs]; exact hlt)
      exact .inl (hm.done hc hrec.state.nested he (fun c ht => hlabelled ⟨c, ht⟩) hi same)
  · rcases hA with hA | ⟨b, hA⟩
    · -- the frame was closed, so the routine cannot be called any more
      cases hA
      cases he
      have hlen : m.frames.hollow.length = i + 1 := hc.along.1.1
      change environ.index < (m.frames.truncate i).hollow.length at hi
      rw [FrameStack.hollow_truncate, List.length_take] at hi
      rw [FrameStack.hollow_length] at hlen
      omega
    · cases hA
      cases he
      exact .inr ⟨⟨i, rest', .inl rfl⟩, hdepth⟩

/-- Where a jump is taken, a clause goes on with its own units, in the frame in which it began. -/
theorem Kept.settled_resumed {before after : Agenda} {c : LabelledClause} {j : Jump} {m₁ : Machine}
    (hrec : Recorded job starts (t :: (before ++ .labelled c :: after)) m L)
    (h : H.Kept job starts (t :: (before ++ .labelled c :: after)) m L)
    (he : t.exec job m = .error (.jump j) m₁) (hwork : c.resume job j.target = .ok work) :
    H.Settled job.program (work ++ after) (c.caught j (m₁.undo before)) := by
  have hc := hrec.state.consistent
  obtain ⟨hrest, ho⟩ := hc.of_error he
  have htail := h.settled.tail
  rw [Consistent.pass_of_error he, ho, Outline.along_append] at htail
  obtain ⟨-, hlabelled, hafter⟩ := htail
  rw [← hrest.caught (j := j)] at hlabelled hafter
  refine .inl ?_
  obtain ⟨target, -, -, rfl⟩ := LabelledClause.resume_eq_ok hwork
  have plain := Exec.plain_chain c.baseline (job.program.tree.walk (some target) c.items).steps
  rw [List.append_assoc, Outline.along_append, Outline.passAll_of_plain plain]
  refine ⟨Outline.along_of_forall plain ?_, hlabelled, hafter⟩
  by_cases hparts : ∃ n ∈ c.items, H.Awaits job.program n
  · obtain ⟨n, hn, ha⟩ := hparts
    exact fun u _ => .of_moored (hlabelled n hn ha)
  · refine fun u hu => .of_only (Agenda.only_chain (fun n hn => ?_) u hu)
    exact Tree.forall_walk hp.spreads.inlined (fun n hn ha => hparts ⟨n, hn, ha⟩) hn

omit hp in
theorem Kept.held_resumed {before : Agenda} {c : LabelledClause} {j : Jump} {m₁ : Machine}
    (hrec : Recorded job starts (t :: rest) m L) (h : H.Kept job starts (t :: rest) m L)
    (he : t.exec job m = .error (.jump j) m₁) {text : NodeId} {environ : FrameHandle} {V : View}
    (hV : L.held text environ V) (ha : H.Awaits job.program text)
    (hlive : (c.caught j (m₁.undo before)).frames.isLive environ) :
    H.Moored job.program (c.caught j (m₁.undo before)).frames.hollow environ.index := by
  have hc := hrec.state.consistent
  obtain ⟨node, id, f, rfl, -, rfl, -⟩ := Exec.exec_jump hc.sound hc.along.1 he
  -- frames were closed and are otherwise as they were
  obtain ⟨n, hn⟩ : ∃ n, (c.caught j (m₁.undo before)).frames.hollow = m₁.frames.hollow.take n := by
    obtain ⟨n, hn⟩ := m₁.undo_hollow before
    exact ⟨min (c.frame + 1) n, by simp [LabelledClause.caught, hn, List.take_take]⟩
  obtain ⟨x, hx, hxs⟩ := FrameStack.isLive_iff.mp hlive
  rw [hn] at hx ⊢
  have hi : environ.index < n := by
    have := (List.getElem?_eq_some_iff.mp hx).1
    rw [List.length_take] at this
    omega
  rw [List.getElem?_take_of_lt hi] at hx
  rcases h.held text environ V hV ha (FrameStack.isLive_iff.mpr ⟨x, hx, hxs⟩) with
    hm | ⟨⟨i, rest', hA⟩, -⟩
  · exact hm.take hrec.state.nested hi
  · rcases hA with hA | ⟨b, hA⟩ <;> cases hA

include hw hj

/-- A step keeps the clause running wherever a jump to the label may be executed. -/
theorem Kept.step (hrec : Recorded job starts A m L) (h : H.Kept job starts A m L)
    (hs : Recounts job (A, m, L) (A', m', L')) : H.Kept job starts A' m' L' := by
  have hbegun := h.begun.step ⟨h.settled, L, hrec⟩ hrec.state.consistent hs.does
  cases hs with
  | @done t work rest _ _ _ _ he hl =>
    have held (text : NodeId) (environ : FrameHandle) (V : View) (hV : L.held text environ V)
        (ha : H.Awaits job.program text) (hlive : m'.frames.isLive environ) :=
      h.held_done hp hrec he hV ha hlive
    refine ⟨h.settled_done hp hrec he, hbegun, ?_, ?_⟩
    · cases hl with
      | entered | called | other => exact held
      | @elaborated text scope params body environ hk henv =>
        rintro text' environ' V (hV | ⟨rfl, rfl, rfl⟩) ha hlive
        · exact held text' environ' V hV ha hlive
        · left
          obtain ⟨still, -⟩ := Lexicon.environ_of_exec hw hj hrec.state hk he
          rw [show m'.frames.hollow = m.frames.hollow from congrArg Outline.frames still.outline]
          exact h.moored_environ hp hw hj hrec hk henv ha
    · cases hl with
      | entered | called | other => exact h.away
      | @elaborated text scope params body environ hk henv =>
        rintro text' environ' V (hV | ⟨rfl, rfl, rfl⟩) ha
        · exact h.away text' environ' V hV ha
        · exact (h.moored_environ hp hw hj hrec hk henv ha).ne_zero (o := m.outline)
            hrec.state.nested hrec.state.consistent.sound
  | @resumed t rest _ _ m₁ _ s _ he hu =>
    obtain ⟨j, before, c, after, work, rfl, rfl, -, -, hwork, rfl, rfl⟩ := unwind_resumed hu
    exact ⟨h.settled_resumed hp hrec he hwork, hbegun,
      fun text environ V hV ha hlive => .inl (h.held_resumed hrec he hV ha hlive), h.away⟩

theorem Kept.runs (hrec : Recorded job starts A m L) (h : H.Kept job starts A m L)
    (hr : ReflTransGen (Recounts job) (A, m, L) (A', m', L')) : H.Kept job starts A' m' L' := by
  generalize hx : (A, m, L) = x at hr
  generalize hy : (A', m', L') = y at hr
  induction hr generalizing A' m' L' with
  | refl =>
    cases hx.trans hy.symm
    exact h
  | @tail y z hr hs ih =>
    obtain ⟨A₁, m₁, L₁⟩ := y
    subst hx hy
    exact (ih rfl).step hw hj hp (hrec.runs hw hj hr) hs

end

/-- No value of a routine text with a jump to the label has the standard environ for its environ. -/
def Away (H : Harbour) (p : Program) (L : Lexicon) : Prop :=
  ∀ text environ V, L.held text environ V → H.Awaits p text → environ.index ≠ 0

theorem Kept.start (hp : H.Proper job.program starts) (hi : m.Idle job)
    (ha : H.Away job.program L) {unit : NodeId} (hu : starts unit) :
    H.Kept job starts [.unit unit] m L := by
  refine ⟨.inl ⟨.of_only fun n hn => ?_, trivial⟩, .start unit, fun text environ V hV hawaits hlive => ?_, ha⟩
  · rw [List.mem_singleton.mp hn]
    exact hp.inside unit hu
  · obtain ⟨x, hx, -⟩ := FrameStack.isLive_iff.mp hlive
    have hlt := (List.getElem?_eq_some_iff.mp hx).1
    rw [FrameStack.hollow_length, hi.depth] at hlt
    exact absurd (by omega) (ha text environ V hV hawaits)

section

variable {units : NodeId → Prop} (hw : job.program.WellScoped (job.starts units))
  (hj : job.program.JumpsOutward (job.starts units)) (hp : H.Proper job.program (job.starts units))

include hw hj hp

theorem away_of_recounted {s : Session} (h : s.Recounted job units L) : H.Away job.program L := by
  induction h with
  | new source keepsText => exact fun _ _ _ h => h.elim
  | run h steps he hr hend ih =>
    obtain ⟨rfl, hready⟩ := h.ready hw hj
    exact (Kept.runs hw hj hp (hready.recorded hw (.inl rfl)) (.start hp hready.idle ih (.inl rfl)) hr).away
  | resume h steps unit hu he hr hend ih =>
    obtain ⟨rfl, hready⟩ := h.ready hw hj
    have hready := hready.atRest hw.standard
    exact (Kept.runs hw hj hp (hready.recorded hw (.inr hu)) (.start hp hready.idle ih (.inr hu)) hr).away
  | clear h ih => exact ih

/-- In every state of every session the clause runs wherever a jump to the label may be executed. -/
theorem kept_of_chronicle (h : Chronicle job units A m L) : H.Kept job (job.starts units) A m L := by
  induction h with
  | run h => exact .start hp (h.ready hw hj).2.idle (away_of_recounted hw hj hp h) (.inl rfl)
  | resume h hu =>
    exact .start hp ((h.ready hw hj).2.atRest hw.standard).idle (away_of_recounted hw hj hp h) (.inr hu)
  | step h hs ih => exact ih.step hw hj hp (h.recorded hw hj) hs

end

end Harbour

end Algol68
