import Algol68.Proofs.Scope.Resolve

/-! Tasks that deal with frames. The work that a task puts in its place finds the frames it needs, the
frames stay nested as the ranges are, and no task fails for want of a local. -/

namespace Algol68

open Outline

/-- Whether doing the task changes nothing in the outline by itself. -/
def Task.passive : Task → Bool
  | .leave _ | .endCall | .labelled _ => false
  | _ => true

variable {job : Job} {starts : NodeId → Prop} {K : NodeId → FrameHandle → Prop} {m : Machine}
  {o : Outline} {p : Program} {s : ScopeId} {n : NodeId}

namespace Outline

theorem pass_of_passive {t : Task} (h : t.passive) : o.pass t = o := by
  cases t <;> simp_all [Task.passive, pass]

theorem along_append_of_passive {A B : Agenda} (hp : ∀ t ∈ A, t.passive)
    (hA : o.PlacedAll p starts K A) (hB : Along (Placed p starts K) o B) :
    Along (Placed p starts K) o (A ++ B) := by
  induction A with
  | nil => exact hB
  | cons t A ih =>
    refine ⟨hA t (List.mem_cons_self ..), ?_⟩
    rw [pass_of_passive (hp t (List.mem_cons_self ..))]
    exact ih (fun u hu => hp u (List.mem_cons_of_mem _ hu))
      fun u hu => hA u (List.mem_cons_of_mem _ hu)

theorem along_of_passive {A : Agenda} (hp : ∀ t ∈ A, t.passive)
    (hA : o.PlacedAll p starts K A) : Along (Placed p starts K) o A := by
  have := along_append_of_passive (B := []) hp hA trivial
  rwa [List.append_nil] at this

theorem passive_of_plain {A : Agenda} (h : ∀ t ∈ A, t.plain) : ∀ t ∈ A, t.passive := by
  intro t ht
  have := h t ht
  cases t <;> simp_all [Task.plain, Task.passive]

theorem passive_chain (baseline : Nat) (chain : List ChainStep) :
    ∀ t ∈ chain.map (·.task baseline), t.passive :=
  ChainStep.forall_task (P := (Task.passive ·)) (fun _ => rfl) rfl chain

theorem placedAll_chain {baseline : Nat} {chain : List ChainStep}
    (h : ∀ n, .unit n ∈ chain → o.Finds p starts n) :
    o.PlacedAll p starts K (chain.map (·.task baseline)) := by
  intro t ht
  obtain ⟨step, hs, rfl⟩ := List.mem_map.mp ht
  cases step with
  | unit n => exact h n hs
  | boundary => trivial

/-- What runs in a frame does not matter for the frames that a node finds. -/
theorem Evaluable.modify (h : o.Evaluable p starts s n) (hn : Nested p o.frames) (k : Nat)
    {g : Frame → Frame} (hg : ∀ x, (g x).key = x.key) :
    Evaluable p starts { o with frames := o.frames.modify k g } s n := by
  have same := SameBelow.modify o.frames.length o.frames k hg
  have top : Outline.top { o with frames := o.frames.modify k g } = o.top := by simp [Outline.top]
  obtain ⟨f, hf, hs⟩ := h.inside
  have hlt := (List.getElem?_eq_some_iff.mp hf).1
  refine ⟨h.stands, ?_, fun d hd => ?_⟩
  · obtain ⟨x, hx, hk⟩ := same.exists_key hlt hf
    simp only [Frame.key, Prod.mk.injEq] at hk
    refine ⟨x, by rw [top]; exact hx, ?_⟩
    rw [hk.1]
    exact hs
  · rw [top]
    exact same.reaches hn hlt (h.supports d hd)

theorem Finds.modify (h : o.Finds p starts n) (hn : Nested p o.frames) (k : Nat)
    {g : Frame → Frame} (hg : ∀ x, (g x).key = x.key) :
    Finds p starts { o with frames := o.frames.modify k g } n :=
  h.imp fun _ h => h.modify hn k hg

/-- The units of a clause find the frames they need where the clause does. -/
theorem Evaluable.inlined {c : NodeId} (h : o.Evaluable p starts s n)
    (hi : (p.tree.kind n).inlines) (hc : c ∈ p.tree.children (p.tree.kind n)) :
    o.Evaluable p starts s c := h.part (standing_of_inlines hi hc)

theorem Evaluable.flatten {items : List NodeId} (h : ∀ c ∈ items, o.Evaluable p starts s c) :
    ∀ u, .unit u ∈ p.tree.flatten items → o.Evaluable p starts s u :=
  fun _ => Tree.forall_flatten (fun _ hn hi _ hc => Evaluable.inlined hn hi hc) h

theorem Finds.walk {items : List NodeId} (h : ∀ c ∈ items, o.Finds p starts c)
    (pending : Option NodeId) : ∀ u, .unit u ∈ (p.tree.walk pending items).steps →
      o.Finds p starts u := by
  refine fun _ => Tree.forall_walk (fun n hn hi c hc => ?_) h
  obtain ⟨s, hs⟩ := hn
  exact ⟨s, hs.inlined hi hc⟩

end Outline

namespace Machine.Still

variable {m' : Machine}

theorem sound (h : m.Still job m') (hs : m.outline.Sound job m.frames.nextSerial) :
    m'.outline.Sound job m'.frames.nextSerial := by
  rw [h.outline, h.nextSerial]
  exact hs

theorem nested (h : m.Still job m') (hn : Nested p m.frames.hollow) : Nested p m'.frames.hollow := by
  rw [show m'.frames.hollow = m.frames.hollow from congrArg Outline.frames h.outline]
  exact hn

end Machine.Still

/-- The frame of a new activation, without the values of its locals. -/
def Job.activation (job : Job) (scope : ScopeId) (link serial : Nat) : Frame :=
  Frame.hollow ⟨scope, job.program.level scope, some link, serial, job.program.freshLocals scope, none⟩

namespace Exec

/-- In a machine, the work put in place of a task finds frames that are nested as the ranges are and
the frames it needs. -/
def Suits (job : Job) (starts : NodeId → Prop) (K : NodeId → FrameHandle → Prop)
    (x : Exec Agenda) (m : Machine) : Prop :=
  wp x (fun work m' => Nested job.program m'.frames.hollow ∧
      Along (Placed job.program starts K) m'.outline work)
    (fun s _ => s.Blameless) m

theorem Quiet.suits {x : Exec Agenda} (hq : Quiet job x) (hn : Nested job.program m.frames.hollow)
    (hp : Places job starts K m.outline x) : Suits job starts K x m := by
  refine wp_mono (wp_and (hq m) (hp m)) ?_ fun _ _ h => h.2
  rintro work m' ⟨⟨hm, hplain⟩, hplaced⟩
  refine ⟨hm.nested hn, along_of_passive (passive_of_plain hplain) ?_⟩
  rw [hm.outline]
  exact hplaced

theorem suits_nothing (hn : Nested job.program m.frames.hollow) {E : Signal → Machine → Prop}
    (he : ∀ s m, E s m → s.Blameless) {x : Exec α}
    (hx : wp x (fun _ m' => m.Still job m') E m) :
    Suits job starts K (do let _ ← x; return []) m := by
  simp only [Suits, wp_bind]
  exact wp_mono hx (fun _ m' hm => ⟨hm.nested hn, trivial⟩) he

theorem wp_enterAt_opened (scope : ScopeId) (link : Nat) {Q : Nat → Machine → Prop}
    {E : Signal → Machine → Prop} (he : ∀ s m, s.Blameless → E s m)
    (hq : ∀ m', m'.outline = m.outline.opened (job.activation scope link m.frames.nextSerial) →
      m'.frames.nextSerial = m.frames.nextSerial + 1 → Q m.frames.depth m') :
    wp (enterAt job scope link) Q E m := by
  rw [wp_enterAt]
  refine ⟨fun _ _ => hq _ ?_ rfl, fun f hf => he _ _ ?_⟩
  · simp only [Machine.outline, FrameStack.hollow_push]
    rfl
  · simp only [FrameStack.checkRoom] at hf
    split at hf
    · cases hf
      rfl
    · cases hf

theorem wp_enter_opened (hs : m.outline.Sound job m.frames.nextSerial) (scope : ScopeId)
    {Q : Nat → Machine → Prop} {E : Signal → Machine → Prop} (he : ∀ s m, s.Blameless → E s m)
    (hq : ∀ m', m'.outline =
        m.outline.opened (job.activation scope m.outline.top m.frames.nextSerial) →
      m'.frames.nextSerial = m.frames.nextSerial + 1 → Q m.frames.depth m') :
    wp (enter job scope) Q E m := by
  have hpos : 0 < m.frames.frames.size := by
    simpa [Machine.outline, FrameStack.depth] using hs.length_pos
  have htop : m.frames.top = .ok m.outline.top := by
    have : m.frames.frames.isEmpty = false := by simpa [Array.size_pos_iff] using hpos
    simp [FrameStack.top, this, Outline.top, Machine.outline, FrameStack.depth]
  simp only [enter, wp_bind, wp_get, wp_lift, htop]
  refine ⟨?_, fun f hf => by cases hf⟩
  rintro link ⟨⟩
  exact wp_enterAt_opened scope _ he hq

section

variable (hw : job.program.WellScoped starts) (hj : job.program.JumpsOutward starts)
  (hs : m.outline.Sound job m.frames.nextSerial) (hn : Nested job.program m.frames.hollow)

include hs hn in
theorem enclosed_suits {scope : ScopeId} (hi : m.outline.Inside job.program s)
    (hc : job.program.Child scope s) (work : Agenda) {outer : Agenda} (hp : ∀ t ∈ work, t.passive)
    (hwork : PlacedAll job.program starts K
      (m.outline.opened (job.activation scope m.outline.top m.frames.nextSerial)) work)
    (houter : ∀ o, Along (Placed job.program starts K) o outer) :
    Suits job starts K (do return (← enclosed job scope work) ++ outer) m := by
  simp only [Suits, enclosed, wp_bind]
  refine wp_enter_opened hs scope (fun _ _ h => h) fun m' ho hserial => ?_
  have hf : m'.frames.hollow = (m.outline.opened _).frames := congrArg Outline.frames ho
  refine ⟨?_, ?_⟩
  · rw [hf]
    exact hi.nested hn rfl rfl hc
  · rw [ho, List.append_assoc]
    exact along_append_of_passive hp hwork ⟨trivial, houter _⟩

theorem yields_along (mode : ModeId) (baseline : Nat) (o : Outline) :
    Along (Placed p starts K) o [.yields mode baseline] := ⟨trivial, trivial⟩

include hs hn in
theorem alternatives_suits (ht : m.annotations.Truthful job) {scope : ScopeId}
    (hi : m.outline.Inside job.program s) (hc : job.program.Child scope s) {items : List NodeId}
    (hchain : job.program.chainOf n =
      some ((ChainStep.units (job.program.tree.flatten items)).map .unit))
    (enquiry : NodeId) (choice : List NodeId → Task) (hp : ∀ units, (choice units).passive)
    (hplaced : PlacedAll job.program starts K
      (m.outline.opened (job.activation scope m.outline.top m.frames.nextSerial))
      [.clause enquiry true, choice (ChainStep.units (job.program.tree.flatten items))])
    (mode : ModeId) (baseline : Nat) :
    Suits job starts K (do
      let units ← alternatives job n items
      return (← enclosed job scope [.clause enquiry true, choice units]) ++
        [.yields mode baseline]) m := by
  rw [Suits, wp_bind]
  refine wp_mono (alternatives_still hchain) ?_ fun _ _ h => h.elim
  rintro units m' ⟨hm, hunits⟩
  have passive : ∀ t ∈ [.clause enquiry true, choice units], t.passive := by
    simpa [Task.passive] using hp units
  refine enclosed_suits (hm.sound hs) (hm.nested hn) (by rw [hm.outline]; exact hi) hc _ passive ?_
    (yields_along mode baseline)
  rw [hm.outline, hm.nextSerial, hunits ht]
  exact hplaced

include hw hj hs hn in
theorem elaborate_suits (ht : m.annotations.Truthful job)
    (h : m.outline.Evaluable job.program starts s n) :
    Suits job starts K (elaborate job n) m := by
  have hp := hw.proper h.stands
  by_cases hv : onValues (job.program.tree.kind n)
  · refine Quiet.suits (elaborate_quiet n ?_) hn (elaborate_places hw h hv)
    generalize job.program.tree.kind n = kind at hv
    cases kind <;> first | rfl | cases hv
  -- the parts of the node, in the frame that is opened for its range
  have enter {scope : ScopeId} (hc : job.program.Child scope s) {c : NodeId}
      (hm : (scope, c) ∈ job.program.standings s (job.program.tree.kind n)) :=
    h.enter (f := job.activation scope m.outline.top m.frames.nextSerial) hn rfl hc hm
  have choices {f : Frame} {scope : ScopeId} {items : List NodeId}
      (hi : ∀ c ∈ items, (m.outline.opened f).Evaluable job.program starts scope c) :
      ∀ u ∈ ChainStep.units (job.program.tree.flatten items),
        (m.outline.opened f).Finds job.program starts u :=
    fun u hu => (Evaluable.flatten hi u (ChainStep.mem_units.mp hu)).found
  cases hk : job.program.tree.kind n with
  | closed scope serial =>
    rw [hk] at hp
    simp only [Suits, elaborate, hk, wp_bind, wp_depth]
    have := enclosed_suits (K := K) hs hn h.inside hp.1 [.clause serial false]
      (by simp [Task.passive])
      (by simpa [Placed] using (enter hp.1 (by simp [hk, Program.standings])).found)
      (yields_along (job.program.tree.mode n) m.stack.size)
    simpa only [Suits, wp_bind] using this
  | conditional scope enquiry thenPart elsePart =>
    rw [hk] at hp
    have parts (c : NodeId) (hm : c ∈ enquiry :: thenPart :: elsePart.toList) :=
      (enter (c := c) hp.1 (by rw [hk]; exact List.mem_map_of_mem hm)).found
    simp only [Suits, elaborate, hk, wp_bind, wp_depth]
    have := enclosed_suits (K := K) hs hn h.inside hp.1
      [.clause enquiry true, .branch thenPart elsePart (job.program.tree.mode n)]
      (by simp [Task.passive])
      (by simpa [Placed] using parts)
      (yields_along (job.program.tree.mode n) m.stack.size)
    simpa only [Suits, wp_bind] using this
  | integerCase scope enquiry items outPart | conformityCase scope enquiry items outPart =>
    rw [hk] at hp
    have parts (c : NodeId)
        (hm : c ∈ enquiry :: job.program.tree.list items ++ outPart.toList) :=
      enter (c := c) hp.1 (by rw [hk]; exact List.mem_map_of_mem hm)
    have units := choices fun c hm => parts c (List.mem_append_left _ (List.mem_cons_of_mem _ hm))
    have chain : job.program.chainOf n = some ((ChainStep.units
        (job.program.tree.flatten (job.program.tree.list items))).map .unit) := by
      simp [Program.chainOf, hk]
    rw [Suits, elaborate, wp_bind, wp_depth]
    simp only [hk]
    refine alternatives_suits (K := K) hs hn ht h.inside hp.1 chain enquiry _ (fun _ => rfl) ?_ _ _
    simp only [placedAll_cons, placedAll_nil, and_true, Placed]
    exact ⟨(parts _ (by simp)).found, units, fun c hm => (parts c (by simp_all)).found⟩
  | identifier slot =>
    rw [hk] at hp
    obtain ⟨d, hd, hds⟩ := hp
    have sees := h.sees hd hds (by rw [hk]; exact List.mem_singleton_self _)
    simp only [Suits, elaborate, hk, wp_bind, wp_depth]
    refine wp_load_of_sees sees hn hs fun v => ?_
    rw [wp_bind, wp_push]
    exact ⟨fun _ => rfl, fun _ => ⟨hn, trivial⟩⟩
  | routineText q params body =>
    obtain ⟨k, f, hr, -, hf, -⟩ := h.environ hw hj hk hn
    have handle : ∃ e, m.frames.handle k = .ok e := by
      rw [FrameStack.hollow_getElem?] at hf
      obtain ⟨x, hx, -⟩ := Option.map_eq_some_iff.mp hf
      exact ⟨⟨k, x.serial⟩, by simp [FrameStack.handle, hx]⟩
    obtain ⟨e, he⟩ := handle
    simp only [Suits, elaborate, hk, wp_bind, wp_depth, wp_get, wp_lift, hr, wp_push]
    refine ⟨fun e' _ => ⟨fun _ => rfl, fun _ => ⟨hn, trivial⟩⟩, fun f hf => ?_⟩
    simp only [Bind.bind, Except.bind, he] at hf
    cases hf
  | jump id =>
    simp only [Suits, elaborate, hk, wp_bind, wp_depth, elaborate.jump, wp_get]
    split
    · simp only [wp_ite, wp_throw, wp_fail]
      exact ⟨fun _ => trivial, fun _ => rfl⟩
    · rfl
  | _ => simp [hk, onValues] at hv

include hs hn in
theorem clause_suits (ht : m.annotations.Truthful job) (hv : m.outline.Vacant)
    (h : m.outline.Evaluable job.program starts s n) (enquiry : Bool) :
    Suits job starts K (clause job n enquiry) m := by
  simp only [clause]
  split
  · next scope range hk =>
    have items : ∀ c ∈ job.program.tree.list range, m.outline.Evaluable job.program starts s c :=
      fun c hc => h.inlined (by rw [hk]; rfl) (by rw [hk]; exact hc)
    have ending : ∀ t ∈ (if !enquiry && job.program.tree.mode n = .void then
        [Task.cut m.stack.size] else []), t = .cut m.stack.size := by
      split <;> simp
    have along (o : Outline) : Along (Placed job.program starts K) o
        (if !enquiry && job.program.tree.mode n = .void then [Task.cut m.stack.size] else []) := by
      refine along_of_passive (fun t ht => ?_) fun t ht => ?_ <;> rw [ending t ht] <;> trivial
    simp only [Suits, wp_bind, wp_depth, wp_ite]
    refine ⟨fun _ => ?_, fun hl => ?_⟩
    · refine wp_mono (wp_announce hs hv n _ _) ?_ fun _ _ h => h.elim
      rintro c m' ⟨hc, hm, -⟩
      have ho := m.announced_outline ⟨n, m.stack.size⟩
      rw [← hm] at ho
      have key (x : Frame) : (x.announce ⟨n, m.stack.size⟩).key = x.key := rfl
      have found (u : NodeId) (hu : m.outline.Finds job.program starts u) :
          m'.outline.Finds job.program starts u := by
        rw [ho]
        exact hu.modify hn _ key
      refine ⟨?_, along_append_of_passive (passive_chain _ _) (placedAll_chain fun u hu => ?_) ?_⟩
      · rw [show m'.frames.hollow = _ from congrArg Outline.frames ho]
        exact hn.modify _ fun x => ⟨rfl, rfl⟩
      · exact found u (Finds.walk (fun c hc => (items c hc).found) none u hu)
      · refine ⟨?_, along _⟩
        rw [hc]
        exact fun u hu => found u (items u hu).found
    · refine wp_mono (linearChain_still hk hl) ?_ fun _ _ h => h.elim
      rintro chain m' ⟨hm, hchain⟩
      refine ⟨hm.nested hn, along_append_of_passive (passive_chain _ _) ?_ (along _)⟩
      rw [hm.outline, hchain ht]
      exact placedAll_chain fun u hu => (Evaluable.flatten items u hu).found
  · exact ⟨hn, h.found, trivial⟩

include hs hn in
theorem conform_suits {units : List NodeId} {outPart : Option NodeId}
    (hw : job.program.WellScoped starts)
    (hu : ∀ n ∈ units, m.outline.Finds job.program starts n)
    (ho : ∀ n ∈ outPart, m.outline.Finds job.program starts n) (mode : ModeId) :
    Suits job starts K (conform job units outPart mode) m := by
  simp only [Suits, conform, wp_bind, wp_pop]
  refine ⟨fun S v _ => ?_, fun _ => rfl⟩
  have hm : m.Still job { m with stack := S } := m.still_stack S
  split
  · next variant payload _ =>
    simp only [wp_bind, wp_lift]
    refine ⟨fun chosen hchosen => ?_, fun f hf => ?_⟩
    · split
      · next a specifier =>
        obtain ⟨n, hmem, id, hk, rfl⟩ := accepting_mem hchosen
        obtain ⟨s, h⟩ := hu n hmem
        have hp := hw.proper h.stands
        rw [hk] at hp
        obtain ⟨hchild, hbinding⟩ := hp
        simp only [wp_bind]
        refine wp_enter_opened (m := { m with stack := S }) hs _ (fun _ _ h => h) fun m' hm' _ => ?_
        generalize hf : job.activation (job.program.tree.alternative id).scope _ _ = f at hm'
        have ho : m'.outline = m.outline.opened f := hm'
        have hscope : f.scope = (job.program.tree.alternative id).scope := by rw [← hf]; rfl
        have hlink : f.staticLink = some m.outline.top := by rw [← hf]; rfl
        rw [← hscope] at hchild hbinding
        refine ⟨?_, ?_⟩
        · rw [show m'.frames.hollow = _ from congrArg Outline.frames ho]
          exact h.inside.nested hn (by rw [← hf]; rfl) hlink hchild
        · rw [ho]
          refine along_append_of_passive ?_ ?_ ⟨?_, trivial, trivial⟩
          · intro t ht
            obtain ⟨slot, -, rfl⟩ := List.mem_map.mp ht
            rfl
          · intro t ht
            obtain ⟨slot, hslot, rfl⟩ := List.mem_map.mp ht
            exact ⟨_, sees_opened (hbinding slot (Option.mem_toList.mp hslot))⟩
          · refine (h.enter hn hlink hchild ?_).found
            rw [hk, hscope]
            exact List.mem_singleton_self _
      · simp only [wp_bind, wp_ite, wp_fail]
        refine ⟨fun _ => rfl, fun _ => ?_⟩
        exact (orUndefined_quiet mode outPart).suits hn (orUndefined_places mode ho)
    · obtain ⟨kind, hcause⟩ := accepting_error hf
      simp [Signal.Blameless, hcause, Cause.ofLocal]
  · rfl
  · simp [Value.mismatch, fault, Signal.Blameless, Cause.ofLocal, Fault.of]

include hs hn in
theorem enterLoop_suits {i : Iteration} {outer : ScopeId}
    (hp : job.program.LoopProper outer i.parts)
    (hl : m.outline.Loops job.program starts outer i.parts) :
    Suits job starts K (enterLoop job i) m := by
  simp only [Suits, enterLoop, wp_bind]
  refine wp_enter_opened hs _ (fun _ _ h => h) fun m' ho _ => ⟨?_, ?_⟩
  · rw [show m'.frames.hollow = _ from congrArg Outline.frames ho]
    exact hl.inside.nested hn rfl rfl hp.loop
  · rw [ho]
    refine ⟨⟨⟨outer, hp⟩, hl.enter hn rfl hp.loop, ?_⟩, trivial, trivial⟩
    rw [opened_top]
    exact Reaches.push_self

include hs hn in
theorem enterBody_suits {i : Iteration} {outer : ScopeId}
    (hp : job.program.LoopProper outer i.parts)
    (hl : m.outline.Loops job.program starts i.parts.scope i.parts)
    (hr : Reaches m.outline.frames m.outline.top i.parts.scope) :
    Suits job starts K (enterBody job i) m := by
  simp only [Suits, enterBody, wp_bind]
  refine wp_enter_opened hs _ (fun _ _ h => h) fun m' ho _ => ⟨?_, ?_⟩
  · rw [show m'.frames.hollow = _ from congrArg Outline.frames ho]
    exact hl.inside.nested hn rfl rfl hp.body
  · rw [ho]
    refine ⟨⟨⟨outer, hp⟩, hl.enter hn rfl hp.body, ?_⟩, trivial, trivial⟩
    rw [opened_top]
    exact hr.push hn rfl hl.inside.top_lt

/-- The parts of an iteration find the frames they need. -/
theorem iteration_placed {i : Iteration} (h : o.Iterates p starts i.parts) :
    o.PlacedAll p starts K (iterate.iteration i) := by
  have unit (c : NodeId) (hc : c ∈ i.parts.bodyUnits) : o.Finds p starts c :=
    ⟨_, (h.loops.units c hc).1, h.loops.inside, (h.loops.units c hc).2⟩
  have doPart := unit i.parts.doPart (by simp [LoopParts.bodyUnits])
  unfold iterate.iteration
  split
  · next enquiry he =>
    have := unit enquiry (by simp [LoopParts.bodyUnits, he])
    simpa [Placed] using ⟨doPart, this, h⟩
  · simpa [Placed] using ⟨doPart, h⟩

theorem iteration_passive (i : Iteration) : ∀ t ∈ iterate.iteration i, t.passive := by
  unfold iterate.iteration
  split <;> simp [Task.passive]

include hs hn in
theorem iterate_suits {i : Iteration} (h : m.outline.Iterates job.program starts i.parts) :
    Suits job starts K (iterate job i) m := by
  have counted : wp (setCounter i) (fun _ m' => m.Still job m') (fun s _ => s.Blameless) m := by
    unfold setCounter
    split
    · next slot hslot => exact wp_store_of_sees (h.sees hslot) hn hs _ fun _ hm => hm
    · exact .refl m
  simp only [Suits, iterate, wp_ite, wp_bind]
  refine ⟨fun _ => ?_, fun _ => ⟨hn, trivial⟩⟩
  refine wp_mono counted (fun _ m₁ h₁ => ?_) fun _ _ h => h
  rw [wp_bind]
  have renewed : wp (renewBody job i) (fun _ m' => m₁.Still job m') (fun _ _ => False) m₁ := by
    rw [renewBody, wp_ite]
    refine ⟨fun _ => .refl m₁, fun _ => ?_⟩
    rw [resetLocals, wp_modify, Machine.still_iff]
    refine ⟨FrameStack.hollow_modify_locals _ _ fun f => ?_, rfl, rfl, id⟩
    simp [Frame.hollow]
  refine wp_mono renewed (fun _ m₂ h₂ => ?_) fun _ _ h => h.elim
  have hm := h₁.trans h₂
  rw [wp_pure, hm.outline]
  refine ⟨hm.nested hn, ?_⟩
  split
  · next enquiry he =>
    have unit := h.loops.units enquiry (by simp [LoopParts.bodyUnits, he])
    exact ⟨⟨_, unit.1, h.loops.inside, unit.2⟩, h, trivial⟩
  · exact along_of_passive (iteration_passive _) (iteration_placed (i := { i with first := false }) h)

include hn in
theorem callValue_suits {callee : Value} (hc : ∀ text environ,
      callee = .procedure (.routine text environ) → m.frames.isLive environ →
      ∃ s q params body f, job.program.Stands starts s text ∧
        job.program.tree.kind text = .routineText q params body ∧
        m.frames.hollow[environ.index]? = some f ∧ K text ⟨environ.index, f.serial⟩ ∧
        job.program.Encloses f.scope s ∧
        Supports job.program m.frames.hollow environ.index s q body)
    (args : List Value) (site : NodeId) :
    Suits job starts K (callValue job callee args site) m := by
  unfold callValue
  split
  · next p =>
    refine (callStandard_quiet args p).suits hn ?_
    cases p with
    | print => exact .pure (by simp [Placed])
    | newline => exact (Gives.modify _).places
  · next text environ =>
    simp only [Suits, callRoutine, wp_bind, wp_get, wp_ite, wp_fail]
    refine ⟨fun _ => rfl, fun hl => ?_⟩
    obtain ⟨s, q, params, body, f, hstands, hk, hf, hknown, he, hsup⟩ :=
      hc text environ rfl (by simpa using hl)
    rw [hk]
    simp only [wp_pure, wp_bind, wp_count, wp_modify]
    refine ⟨hn, ⟨s, text, params, f, hstands, hk, ⟨_, rfl, rfl⟩, hf, hknown, he, hsup⟩, trivial, trivial⟩
  · rfl
  · rfl
  · simp [Suits, Value.mismatch, fault, Signal.Blameless, Cause.ofLocal, Fault.of]

include hn in
theorem enterRoutine_suits {scope : ScopeId} {environ : Nat} {args : List Value} {body : NodeId}
    (hw : job.program.WellScoped starts)
    (h : m.outline.Enters job.program starts K environ scope body) :
    Suits job starts K (enterRoutine job scope environ args body) m := by
  obtain ⟨s, r, params, f, hstands, hk, -, hf, -, he, hsup⟩ := h
  have hchild := hw.proper hstands
  rw [hk] at hchild
  have hbody : (scope, body) ∈ job.program.standings s (job.program.tree.kind r) := by
    simp [hk, Program.standings]
  have hlt : environ < m.frames.hollow.length := (List.getElem?_eq_some_iff.mp hf).1
  simp only [Suits, enterRoutine, wp_bind]
  refine wp_enterAt_opened scope environ (fun _ _ h => h) fun m₁ ho _ => ?_
  simp only [wp_bind, wp_modify, wp_pure]
  have hm : m₁.Still job { m₁ with
      frames := m₁.frames.modify m.frames.depth fun frame =>
        { frame with locals := frame.locals.mapIdx fun k v => args.getD k v } } := by
    rw [Machine.still_iff]
    exact ⟨FrameStack.hollow_modify_locals _ _ fun f => by simp [Frame.hollow], rfl, rfl, id⟩
  have hnested : Nested job.program m₁.frames.hollow := by
    rw [show m₁.frames.hollow = _ from congrArg Outline.frames ho]
    refine hn.push rfl rfl hf (he.tail hchild) ?_
    have := he.level_le
    have := hchild.level
    change job.program.level f.scope < job.program.level scope
    omega
  refine ⟨hm.nested hnested, ?_⟩
  rw [hm.outline, ho]
  refine ⟨⟨scope, .inner hstands hbody, inside_opened, ?_⟩, trivial, trivial⟩
  rw [opened_top]
  exact hsup.push hn rfl hlt hchild

end

end Exec

end Algol68
