import Algol68.Proofs.Frames.Step

/-! Every task follows the outline: done in an outline it admits, it leaves a sound outline in which
the work it puts in its place finds what it asks for, and that work ends in the outline that was
expected of the task. -/

namespace Algol68

open Outline (Along Admits)

variable {job : Job} {m : Machine}

/-- The machine after a frame was opened. Closing it gives the outline there was before. -/
structure Machine.Opened (job : Job) (m m' : Machine) : Prop where
  sound : m'.outline.Sound job m'.frames.nextSerial
  nextSerial : m.frames.nextSerial ≤ m'.frames.nextSerial
  learns : m.annotations.Truthful job → m'.annotations.Truthful job
  length : m'.outline.frames.length = m.frames.depth + 1
  vacant : m'.outline.Vacant
  closes : { m'.outline with frames := m'.outline.frames.take m.frames.depth } = m.outline

theorem Machine.Opened.follows {m' : Machine} (h : m.Opened job m') (work : Agenda)
    (hw : ∀ t ∈ work, t.plain) :
    m'.outline.Sound job m'.frames.nextSerial ∧ m.frames.nextSerial ≤ m'.frames.nextSerial ∧
      (m.annotations.Truthful job → m'.annotations.Truthful job) ∧
      Along Admits m'.outline (work ++ [.leave m.frames.depth]) ∧
      m'.outline.passAll (work ++ [.leave m.frames.depth]) = m.outline := by
  refine ⟨h.sound, h.nextSerial, h.learns, ?_, ?_⟩
  · rw [Outline.along_append, Outline.passAll_of_plain hw]
    exact ⟨Outline.along_of_plain hw, ⟨h.length, h.vacant⟩, trivial⟩
  · rw [Outline.passAll_append, Outline.passAll_of_plain hw]
    exact h.closes

theorem Machine.Opened.of_still {m' m'' : Machine} (h : m.Opened job m') (hm : m'.Still job m'') :
    m.Opened job m'' := by
  constructor
  · rw [hm.outline, hm.nextSerial]
    exact h.sound
  · rw [hm.nextSerial]
    exact h.nextSerial
  · exact hm.learns ∘ h.learns
  · rw [hm.outline]
    exact h.length
  · rw [hm.outline]
    exact h.vacant
  · rw [hm.outline]
    exact h.closes

/-- The machine in whose innermost frame a labelled clause runs. -/
def Machine.announced (m : Machine) (r : Resumption) : Machine := { m with
  frames := m.frames.modify (m.frames.depth - 1) (Frame.announce r) }

theorem Machine.announced_outline (m : Machine) (r : Resumption) :
    (m.announced r).outline = { m.outline with
      frames := m.outline.frames.modify (m.frames.depth - 1) (Frame.announce r) } := by
  simp only [Machine.announced, Machine.outline]
  rw [FrameStack.hollow_modify _ _ fun x => Frame.hollow_announce _ x]

namespace Exec

theorem opened_push (hs : m.outline.Sound job m.frames.nextSerial) (scope : ScopeId) {link : Nat}
    (hl : link < m.frames.depth) :
    m.Opened job { m with
      frames := m.frames.push scope (job.program.scopes.get scope).level (some link)
        (job.program.freshLocals scope) } := by
  have hpos : 0 < m.frames.depth := by simpa [Machine.outline] using hs.length_pos
  have hlen : m.frames.hollow.length = m.frames.depth := m.frames.hollow_length
  constructor
  · simp only [Machine.outline, FrameStack.hollow_push]
    refine hs.push (by simpa [Machine.outline] using hl) rfl rfl ?_ rfl
    simp [Frame.hollow, Program.freshLocals]
  · exact Nat.le_succ _
  · exact id
  · simp [Machine.outline]
  · refine ⟨by simpa [Machine.outline] using Nat.succ_le_of_lt hpos, fun f hf => ?_⟩
    simp only [Machine.outline, FrameStack.hollow_push, List.length_append, List.length_singleton,
      Nat.add_sub_cancel, List.getElem?_concat_length, Option.some.injEq] at hf
    rw [← hf]
    rfl
  · simp only [Machine.outline, FrameStack.hollow_push, List.take_left' hlen]

theorem wp_enter (hs : m.outline.Sound job m.frames.nextSerial) (scope : ScopeId)
    {Q : Nat → Machine → Prop} {E : Signal → Machine → Prop} (he : ∀ s, E s m)
    (hq : ∀ m', m.Opened job m' → Q m.frames.depth m') : wp (enter job scope) Q E m := by
  have hpos : 0 < m.frames.depth := by simpa [Machine.outline] using hs.length_pos
  simp only [enter, wp_bind, wp_get, wp_lift, wp_enterAt]
  refine ⟨fun link hl => ⟨fun u _ => hq _ (opened_push hs scope ?_), fun f _ => he _⟩,
    fun f _ => he _⟩
  simp only [FrameStack.top] at hl
  split at hl
  · cases hl
  · cases hl
    exact Nat.sub_lt hpos Nat.one_pos

theorem enclosed_follows (hs : m.outline.Sound job m.frames.nextSerial) (scope : ScopeId)
    (clause : NodeId) (enquiry : Bool) (inner : Agenda) {outer : Agenda} (hi : ∀ t ∈ inner, t.plain)
    (ho : ∀ t ∈ outer, t.plain) :
    Follows job (do return (← enclosed job scope (.clause clause enquiry :: inner)) ++ outer)
      m.outline m := by
  simp only [Follows, enclosed, wp_bind]
  refine wp_enter hs scope (fun _ => .refl m) fun m' h => ⟨h.sound, h.nextSerial, h.learns, ?_, ?_⟩
  · simp only [List.cons_append, List.append_assoc, Outline.along_cons, Outline.along_append,
      Outline.passAll_of_plain hi, Outline.pass]
    exact ⟨h.vacant, Outline.along_of_plain hi, ⟨h.length, h.vacant⟩, trivial,
      Outline.along_of_plain ho⟩
  · simp only [List.cons_append, List.append_assoc, Outline.passAll_cons, Outline.passAll_append,
      Outline.passAll_of_plain hi, Outline.passAll_of_plain ho, Outline.pass, Outline.passAll_nil]
    exact h.closes

theorem alternatives_still {node : NodeId} {items : List NodeId}
    (hc : job.program.chainOf node =
      some ((ChainStep.units (job.program.tree.flatten items)).map .unit)) :
    wp (alternatives job node items)
      (fun units m' => m.Still job m' ∧ (m.annotations.Truthful job →
        units = ChainStep.units (job.program.tree.flatten items)))
      (fun _ _ => False) m := by
  simp only [alternatives, wp_bind, wp_get]
  split
  · next chain hchain =>
    refine ⟨.refl m, fun ht => ?_⟩
    have := ht.chain node chain hchain
    rw [hc, Option.some.injEq] at this
    simp [← this]
  · refine ⟨⟨rfl, rfl, fun ht => ?_⟩, fun _ => rfl⟩
    exact (ht.beginLinearizing node).finishLinearizing hc (by simp [Flags.none])

theorem linearChain_still {serial : NodeId} {scope : ScopeId} {range : NodeRange}
    (hk : job.program.tree.kind serial = .serialClause scope range)
    (hl : ¬ (job.program.scopes.get scope).hasLabels) :
    wp (linearChain job serial (job.program.tree.list range))
      (fun chain m' => m.Still job m' ∧ (m.annotations.Truthful job →
        chain = job.program.tree.flatten (job.program.tree.list range)))
      (fun _ _ => False) m := by
  have hc : job.program.chainOf serial =
      some (job.program.tree.flatten (job.program.tree.list range)) := by
    simp [Program.chainOf, hk, hl]
  simp only [linearChain, wp_bind, wp_get]
  split
  · next chain hchain =>
    refine ⟨⟨rfl, rfl, id⟩, fun ht => ?_⟩
    have := ht.chain serial chain hchain
    rw [hc, Option.some.injEq] at this
    exact this.symm
  · refine ⟨⟨rfl, rfl, fun ht => ?_⟩, fun _ => rfl⟩
    exact (ht.beginLinearizing serial).finishLinearizing hc fun _ => ⟨scope, range, hk⟩

theorem Follows.of_still {x : Exec Agenda} {m₀ : Machine} (hm : m₀.Still job m)
    (hs : m₀.outline.Sound job m₀.frames.nextSerial)
    (h : m.outline.Sound job m.frames.nextSerial → Follows job x m.outline m) :
    wp x (fun work m' => m'.outline.Sound job m'.frames.nextSerial ∧
        m₀.frames.nextSerial ≤ m'.frames.nextSerial ∧
        (m₀.annotations.Truthful job → m'.annotations.Truthful job) ∧
        Along Admits m'.outline work ∧ m'.outline.passAll work = m₀.outline)
      (fun _ m' => m₀.Still job m') m := by
  rw [← hm.outline, ← hm.nextSerial]
  refine wp_mono (h ?_) (fun _ _ hw => ⟨hw.1, hw.2.1, hw.2.2.1 ∘ hm.learns, hw.2.2.2⟩)
    fun _ _ he => hm.trans he
  rw [hm.outline, hm.nextSerial]
  exact hs

theorem jump_still (id : LabelId) :
    wp (elaborate.jump job id) (fun _ _ => False) (fun _ m' => m' = m) m := by
  simp only [elaborate.jump, wp_bind, wp_get]
  split <;> simp

theorem elaborate_follows (hs : m.outline.Sound job m.frames.nextSerial) (node : NodeId) :
    Follows job (elaborate job node) m.outline m := by
  have yields : ∀ t ∈ [Task.yields (job.program.tree.mode node) m.stack.size], t.plain := by
    simp [Task.plain]
  by_cases hq : changesFrame (job.program.tree.kind node) = false
  · exact (elaborate_quiet node hq).follows hs
  cases hk : job.program.tree.kind node with
  | closed scope serial =>
    simp only [Follows, elaborate, hk, wp_bind, wp_depth]
    have := enclosed_follows hs scope serial false [] (by simp)
      yields
    simpa only [Follows, wp_bind] using this
  | conditional scope enquiry thenPart elsePart =>
    simp only [Follows, elaborate, hk, wp_bind, wp_depth]
    have := enclosed_follows hs scope enquiry true
      [.branch thenPart elsePart (job.program.tree.mode node)] (by simp [Task.plain])
      yields
    simpa only [Follows, wp_bind] using this
  | integerCase scope enquiry items outPart | conformityCase scope enquiry items outPart =>
    rw [Follows, elaborate, wp_bind, wp_depth]
    simp only [hk]
    rw [wp_bind]
    refine wp_mono (alternatives_still (by simp [Program.chainOf, hk])) (fun units m' hm => ?_)
      fun _ _ h => h.elim
    exact Follows.of_still hm.1 hs fun hs' =>
      enclosed_follows hs' scope enquiry true [_] (by simp [Task.plain]) yields
  | jump id =>
    simp only [Follows, elaborate, hk, wp_bind, wp_depth]
    refine wp_mono (jump_still id) (fun _ _ h => h.elim) fun _ m' h => ?_
    rw [h]
    exact .refl m
  | _ => simp [hk, changesFrame] at hq

theorem conform_follows (hs : m.outline.Sound job m.frames.nextSerial) (units : List NodeId)
    (outPart : Option NodeId) (mode : ModeId) :
    Follows job (conform job units outPart mode) m.outline m := by
  simp only [Follows, conform, wp_bind, wp_pop]
  refine ⟨fun S v _ => ?_, fun _ => .refl m⟩
  have hm : m.Still job { m with stack := S } := m.still_stack S
  rw [← show Machine.outline { m with stack := S } = m.outline from rfl]
  split
  · next variant payload _ =>
    simp only [wp_bind, wp_lift]
    refine ⟨fun chosen _ => ?_, fun f _ => hm⟩
    split
    · next a specifier _ =>
      simp only [wp_bind]
      refine wp_enter (m := { m with stack := S }) hs a.scope (fun _ => hm) fun m' h => ?_
      have plain (bound : Value) :
          ∀ t ∈ a.binding.toList.map (Task.store · bound) ++ [.unit a.unit], t.plain := by
        simp only [List.mem_append, List.mem_map, List.mem_singleton]
        rintro t (⟨slot, -, rfl⟩ | rfl) <;> rfl
      have := h.follows _ (plain
        (if (job.oracle.variants specifier).isSome then .union variant payload else payload))
      simpa only [wp_pure, List.append_assoc, List.cons_append, List.nil_append] using this
    · simp only [wp_bind, wp_ite, wp_fail]
      refine ⟨fun _ => hm, fun _ => ?_⟩
      exact Follows.of_still hm hs fun hs' => (orUndefined_quiet mode outPart).follows hs'
  · exact hm
  · exact hm

theorem callValue_follows (hs : m.outline.Sound job m.frames.nextSerial) (callee : Value)
    (args : List Value) (site : NodeId) :
    Follows job (callValue job callee args site) m.outline m := by
  unfold callValue
  split
  · exact (callStandard_quiet _ _).follows hs
  · next text environ =>
    simp only [Follows, callRoutine, wp_bind, wp_get, wp_ite, wp_fail]
    refine ⟨fun _ => .refl m, fun hl => ?_⟩
    split
    · next scope params body _ =>
      have live : environ.index < m.frames.depth := by
        simp only [FrameStack.isLive] at hl
        split at hl
        · next hf => exact (Array.getElem?_eq_some_iff.mp hf).1
        · simp at hl
      simp only [wp_pure, wp_bind, wp_count, wp_modify]
      refine ⟨hs.of_calls _, Nat.le_refl _, id, ⟨?_, ?_, trivial⟩, rfl⟩
      · simpa [Machine.outline, Admits] using live
      · simp [Machine.outline, Outline.pass, Admits]
    · exact .refl m
  · exact .refl m
  · exact .refl m
  · exact .refl m

/-- Leaving word on the innermost frame that a labelled clause runs in it. -/
theorem wp_announce (hs : m.outline.Sound job m.frames.nextSerial) (hv : m.outline.Vacant)
    (serial : NodeId) (items : List NodeId) (baseline : Nat) :
    wp (announce serial items baseline)
      (fun c m' => c = ⟨serial, items, m.frames.depth - 1, c.activation, baseline⟩ ∧
        m' = m.announced ⟨serial, baseline⟩ ∧ m'.outline.Sound job m'.frames.nextSerial ∧
        m'.outline.Admits (.labelled c) ∧ m'.outline.pass (.labelled c) = m.outline)
      (fun _ _ => False) m := by
  have hlen : m.outline.frames.length = m.frames.depth := by simp [Machine.outline]
  have hinner := hv.inner
  have hpos : m.frames.depth - 1 < m.frames.frames.size := by
    simp only [FrameStack.depth] at *
    omega
  obtain ⟨f, hf⟩ : ∃ f, m.frames.frames[m.frames.depth - 1]? = some f :=
    ⟨_, Array.getElem?_eq_getElem hpos⟩
  have hh : m.outline.frames[m.frames.depth - 1]? = some f.hollow := by
    simp [Machine.outline, FrameStack.hollow_getElem?, hf]
  have vacant : f.resumption = none := hv.top f.hollow (by rw [hlen]; exact hh)
  have top : m.frames.top = .ok (m.frames.depth - 1) := by
    have : m.frames.frames.isEmpty = false := by
      simpa [Array.size_pos_iff] using Nat.zero_lt_of_lt hpos
    simp [FrameStack.top, this, FrameStack.depth]
  have handle : m.frames.handle (m.frames.depth - 1) = .ok ⟨m.frames.depth - 1, f.serial⟩ := by
    simp [FrameStack.handle, hf]
  simp only [announce, wp_bind, wp_get, wp_lift, wp_modify, wp_pure, top]
  refine ⟨?_, fun _ h => by cases h⟩
  rintro index ⟨⟩
  simp only [handle]
  refine ⟨?_, fun _ h => by cases h⟩
  rintro _ ⟨⟩
  have outline := m.announced_outline ⟨serial, baseline⟩
  refine ⟨trivial, rfl, ?_, ?_, ?_⟩
  · change (m.announced ⟨serial, baseline⟩).outline.Sound job m.frames.nextSerial
    rw [outline]
    exact hs.modify (by omega) fun f => ⟨rfl, rfl, rfl, rfl, rfl⟩
  · change (m.announced ⟨serial, baseline⟩).outline.Admits _
    rw [outline]
    refine ⟨by dsimp only; omega, by dsimp only; rw [List.length_modify]; omega, ?_⟩
    exact ⟨f.hollow.announce ⟨serial, baseline⟩, by simp [hh], rfl, rfl⟩
  · change (m.announced ⟨serial, baseline⟩).outline.pass _ = _
    rw [outline]
    refine congrArg (Outline.mk · m.calls) (List.ext_getElem? fun k => ?_)
    change _ = m.outline.frames[k]?
    simp only [List.getElem?_modify]
    by_cases hk : m.frames.depth - 1 = k
    · subst hk
      rw [hh]
      simp [Frame.announce, Frame.vacate, Frame.hollow, vacant]
    · simp [hk]

theorem plain_chain (baseline : Nat) (chain : List ChainStep) :
    ∀ t ∈ chain.map (·.task baseline), t.plain :=
  ChainStep.forall_task (P := (Task.plain ·)) (fun _ => rfl) rfl chain

theorem clause_follows (hs : m.outline.Sound job m.frames.nextSerial) (hv : m.outline.Vacant)
    (node : NodeId) (enquiry : Bool) : Follows job (clause job node enquiry) m.outline m := by
  simp only [clause]
  split
  · next scope range hk =>
    have ending : ∀ t ∈ (if !enquiry && job.program.tree.mode node = .void then
        [Task.cut m.stack.size] else []), t.plain := by
      split <;> simp [Task.plain]
    simp only [Follows, wp_bind, wp_depth, wp_ite]
    refine ⟨fun _ => ?_, fun hl => ?_⟩
    · refine wp_mono (wp_announce hs hv node _ _) ?_ fun _ _ h => h.elim
      rintro c m' ⟨hc, hm, hs', ha, hp⟩
      refine ⟨hs', by rw [hm]; exact Nat.le_refl _, by rw [hm]; exact id, ?_, ?_⟩
      · rw [Outline.along_append, Outline.passAll_of_plain (plain_chain _ _)]
        refine ⟨Outline.along_of_plain (plain_chain _ _), ha, ?_⟩
        exact Outline.along_of_plain ending
      · rw [Outline.passAll_append, Outline.passAll_of_plain (plain_chain _ _), Outline.passAll_cons, hp,
          Outline.passAll_of_plain ending]
    · refine wp_mono (linearChain_still hk hl) (fun chain m' hm => ?_) fun _ _ h => h.elim
      obtain ⟨hm, -⟩ := hm
      have plain : ∀ t ∈ chain.map (·.task m.stack.size) ++
          (if !enquiry && job.program.tree.mode node = .void then [Task.cut m.stack.size] else []),
          t.plain := by
        intro t ht
        rcases List.mem_append.mp ht with ht | ht
        · exact plain_chain _ _ t ht
        · exact ending t ht
      rw [wp_pure, hm.outline, hm.nextSerial, Outline.passAll_of_plain plain]
      exact ⟨hs, Nat.le_refl _, hm.learns, Outline.along_of_plain plain, rfl⟩
  · simp only [Follows, wp_pure]
    exact ⟨hs, Nat.le_refl _, id, ⟨trivial, trivial⟩, rfl⟩

theorem enterLoop_follows (hs : m.outline.Sound job m.frames.nextSerial) (i : Iteration) :
    Follows job (enterLoop job i) m.outline m := by
  simp only [Follows, enterLoop, wp_bind]
  exact wp_enter hs _ (fun _ => .refl m) fun m' h =>
    h.follows [.enterBody i] (by simp [Task.plain])

theorem enterBody_follows (hs : m.outline.Sound job m.frames.nextSerial) (i : Iteration) :
    Follows job (enterBody job i) m.outline m := by
  simp only [Follows, enterBody, wp_bind]
  refine wp_enter hs _ (fun _ => .refl m) fun m' h =>
    ⟨h.sound, h.nextSerial, h.learns, ?_, h.closes⟩
  exact ⟨⟨h.length, h.vacant⟩, ⟨h.length, h.vacant⟩, trivial⟩

theorem along_iteration {o : Outline} {i : Iteration} (hl : o.frames.length = i.body + 1)
    (hv : o.Vacant) : Along Admits o (iterate.iteration i) := by
  unfold iterate.iteration
  split
  · exact ⟨hv, hv, ⟨hl, hv⟩, trivial⟩
  · exact ⟨hv, ⟨hl, hv⟩, trivial⟩

theorem passAll_iteration {o : Outline} {i : Iteration} :
    o.passAll (iterate.iteration i) = o := by
  unfold iterate.iteration
  split <;> rfl

theorem resetLocals_still (index : Nat) :
    wp (resetLocals job index) (fun _ m' => m.Still job m') (fun _ m' => m.Still job m') m := by
  rw [resetLocals, wp_modify, Machine.still_iff]
  refine ⟨FrameStack.hollow_modify_locals _ _ fun f => ?_, rfl, rfl, id⟩
  simp [Frame.hollow]

theorem setCounter_still (i : Iteration) :
    wp (setCounter i) (fun _ m' => m.Still job m') (fun _ m' => m.Still job m') m := by
  unfold setCounter
  split <;> simp [Machine.still_iff]

theorem renewBody_still (i : Iteration) :
    wp (renewBody job i) (fun _ m' => m.Still job m') (fun _ m' => m.Still job m') m := by
  rw [renewBody, wp_ite]
  exact ⟨fun _ => .refl m, fun _ => resetLocals_still i.body⟩

theorem iterate_follows (hs : m.outline.Sound job m.frames.nextSerial) (i : Iteration)
    (hl : m.outline.frames.length = i.body + 1) (hv : m.outline.Vacant) :
    Follows job (iterate job i) m.outline m := by
  simp only [Follows, iterate, wp_ite, wp_bind]
  refine ⟨fun _ => ?_, fun _ => ⟨hs, Nat.le_refl _, id, trivial, rfl⟩⟩
  refine wp_mono (setCounter_still i) (fun _ m₁ h₁ => ?_) fun _ _ h => h
  rw [wp_bind]
  refine wp_mono (renewBody_still i) (fun _ m₂ h₂ => ?_) fun _ _ h => h₁.trans h
  have h := h₁.trans h₂
  rw [wp_pure, h.outline, h.nextSerial]
  refine ⟨hs, Nat.le_refl _, h.learns, ?_⟩
  split
  · exact ⟨⟨hv, ⟨hl, hv⟩, trivial⟩, rfl⟩
  · exact ⟨along_iteration hl hv, passAll_iteration⟩

theorem enterRoutine_opens (hs : m.outline.Sound job m.frames.nextSerial) (scope : ScopeId)
    (environ : Nat) (args : List Value) (body : NodeId) (he : environ < m.frames.depth) :
    wp (enterRoutine job scope environ args body)
      (fun work m' => m.Opened job m' ∧ work = [.unit body] ++ [.leave m.frames.depth])
      (fun _ m' => m.Still job m') m := by
  simp only [enterRoutine, wp_bind, wp_enterAt, wp_modify, wp_pure]
  refine ⟨fun _ _ => ⟨(opened_push hs scope he).of_still ?_, rfl⟩, fun _ _ => .refl m⟩
  rw [Machine.still_iff]
  exact ⟨FrameStack.hollow_modify_locals _ _ fun f => by simp [Frame.hollow], rfl, rfl, id⟩

theorem enterRoutine_follows (hs : m.outline.Sound job m.frames.nextSerial) (scope : ScopeId)
    (environ : Nat) (args : List Value) (body : NodeId) (he : environ < m.frames.depth) :
    Follows job (enterRoutine job scope environ args body) m.outline m := by
  refine wp_mono (enterRoutine_opens hs scope environ args body he) ?_ fun _ _ h => h
  rintro _ m' ⟨h, rfl⟩
  exact h.follows _ (by simp [Task.plain])

theorem exec_follows (hs : m.outline.Sound job m.frames.nextSerial) {t : Task}
    (ha : m.outline.Admits t) : Follows job (t.exec job) (m.outline.pass t) m := by
  by_cases hq : t.quiet
  · have hp : m.outline.pass t = m.outline := by cases t <;> first | rfl | cases hq
    rw [hp]
    exact (exec_quiet hq).follows hs
  by_cases hc : t.calls
  · have hp : m.outline.pass t = m.outline := by cases t <;> first | rfl | cases hc
    rw [hp]
    exact wp_calls hc (fun _ S _ => m.still_stack S) fun callee args site S _ =>
      Follows.of_still (m.still_stack S) hs fun hs' => callValue_follows hs' callee args site
  cases t with
  | elaborate node => exact elaborate_follows hs node
  | clause node enquiry => exact clause_follows hs ha node enquiry
  | conform units outPart mode => exact conform_follows hs units outPart mode
  | enterLoop i => exact enterLoop_follows hs i
  | enterBody i => exact enterBody_follows hs i
  | iterate i => exact iterate_follows hs i ha.1 ha.2
  | enterRoutine scope environ args body =>
    have he : environ < m.frames.depth := by simpa [Admits, Machine.outline] using ha
    exact enterRoutine_follows hs scope environ args body he
  | call | operate => exact absurd rfl hc
  | coerce kind node operand baseline =>
    have hk : kind ≠ .deprocedure := fun hk => hc (hk ▸ rfl)
    exact (coerce_quiet kind node operand baseline hk).follows hs
  | leave depth =>
    have hp := hs.pass ha
    have ho : ({ m with frames := m.frames.truncate depth } : Machine).outline =
        m.outline.pass (.leave depth) := by
      simp [Machine.outline, Outline.pass]
    rw [← ho] at hp ⊢
    exact ⟨hp, Nat.le_refl _, id, trivial, rfl⟩
  | endCall => exact ⟨hs.pass ha, Nat.le_refl _, id, trivial, rfl⟩
  | labelled c =>
    have hp := hs.pass ha
    have ho : ({ m with frames := m.frames.modify c.frame Frame.vacate } : Machine).outline =
        m.outline.pass (.labelled c) := by
      simp only [Machine.outline, Outline.pass]
      rw [FrameStack.hollow_modify _ _ Frame.hollow_vacate]
    rw [← ho] at hp ⊢
    exact ⟨hp, Nat.le_refl _, id, trivial, rfl⟩
  | afterWhile i =>
    simp only [Follows, Task.exec, afterWhile, popBool, wp_bind, wp_pop, wp_lift, wp_pure]
    refine ⟨fun S v _ => ⟨fun b _ => ⟨hs, Nat.le_refl _, id, ?_⟩, fun _ _ => m.still_stack S⟩,
      fun _ => .refl m⟩
    split
    · exact ⟨along_iteration ha.1 ha.2, passAll_iteration⟩
    · exact ⟨trivial, rfl⟩
  | afterUntil i =>
    simp only [Follows, Task.exec, afterUntil, popBool, wp_bind, wp_pop, wp_lift, wp_pure]
    refine ⟨fun S v _ => ⟨fun b _ => ⟨hs, Nat.le_refl _, id, ?_⟩, fun _ _ => m.still_stack S⟩,
      fun _ => .refl m⟩
    split
    · exact ⟨trivial, rfl⟩
    · exact ⟨⟨ha, trivial⟩, rfl⟩
  | advance i =>
    simp only [Follows, Task.exec, advance, wp_ite, wp_pure]
    refine ⟨fun _ => ?_, fun _ => ⟨hs, Nat.le_refl _, id, ⟨ha, trivial⟩, rfl⟩⟩
    split
    · exact ⟨hs, Nat.le_refl _, id, ⟨ha, trivial⟩, rfl⟩
    · exact .refl m
  | _ => exact absurd rfl hq

end Exec

end Algol68
