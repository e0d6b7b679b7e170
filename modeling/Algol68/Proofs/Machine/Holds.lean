import Algol68.Proofs.Machine.Natural
import Algol68.Proofs.Frames.Follow
import Algol68.Proofs.Value.Path

/-! What holds of every procedure in a machine. Tasks move values around and take them apart; the
only procedures they make are the standard ones and the values of routine texts. -/

namespace Algol68

open Value (Within restrict)

variable {R : Procedure → Prop} {job : Job} {m : Machine}

/-- Every procedure on the stack, in the locals and in the store has a property. -/
structure Machine.Holds (R : Procedure → Prop) (m : Machine) : Prop where
  stack : ∀ v ∈ m.stack, v.Within R
  locals : ∀ f ∈ m.frames.frames, ∀ v ∈ f.locals, v.Within R
  cells : ∀ v ∈ m.store.cells, v.Within R

/-- The values in a task. -/
def Task.values : Task → List Value
  | .store _ v => [v]
  | .take ⟨.slice base _, _, _⟩ => [base]
  | .call callee _ _ => [callee]
  | .enterRoutine _ _ args _ => args
  | .print values => values
  | _ => []

/-- Every procedure in a task has a property. -/
def Task.Holds (R : Procedure → Prop) (t : Task) : Prop := ∀ v ∈ t.values, v.Within R

/-- Every procedure in the tasks of an agenda has a property. -/
def Agenda.Holds (R : Procedure → Prop) (A : Agenda) : Prop := ∀ t ∈ A, t.Holds R

theorem Value.map_restrict_iff (hR : R (.standard .print)) {vs : List Value} :
    vs.map (.rename (restrict R)) = vs ↔ ∀ v ∈ vs, v.Within R := by
  constructor
  · intro h v hv
    obtain ⟨k, hk, rfl⟩ := List.mem_iff_getElem.mp hv
    rw [within_iff hR]
    have := congrArg (·[k]?) h
    simpa [hk] using this
  · intro h
    calc vs.map (.rename (restrict R)) = vs.map id :=
          List.map_congr_left fun v hv => (within_iff hR).mp (h v hv)
      _ = vs := List.map_id vs

theorem Task.holds_iff (hR : R (.standard .print)) {t : Task} :
    t.Holds R ↔ t.rename (restrict R) = t := by
  have one {v : Value} : (∀ w ∈ [v], w.Within R) ↔ v.rename (restrict R) = v := by
    rw [← Value.map_restrict_iff hR]
    simp
  cases t with
  | take g =>
    obtain ⟨p, found, wanted⟩ := g
    cases p with
    | slice base trimmers =>
      simp only [Task.Holds, Task.values, one, Task.rename, Gathering.rename, Purpose.rename]
      simp
    | _ => simp [Task.Holds, Task.values, Task.rename, Gathering.rename, Purpose.rename]
  | store slot v =>
    simp only [Task.Holds, Task.values, one, Task.rename]
    simp
  | call callee count site =>
    simp only [Task.Holds, Task.values, one, Task.rename]
    simp
  | enterRoutine scope environ args body =>
    simp only [Task.Holds, Task.values, Task.rename, ← Value.map_restrict_iff hR]
    simp
  | print values =>
    simp only [Task.Holds, Task.values, Task.rename, ← Value.map_restrict_iff hR]
    simp
  | _ => simp [Task.Holds, Task.values, Task.rename]

theorem Agenda.holds_iff (hR : R (.standard .print)) {A : Agenda} :
    A.Holds R ↔ Agenda.rename (restrict R) A = A := by
  constructor
  · intro h
    calc Agenda.rename (restrict R) A = A.map id :=
          List.map_congr_left fun t ht => (Task.holds_iff hR).mp (h t ht)
      _ = A := List.map_id A
  · intro h t ht
    obtain ⟨k, hk, rfl⟩ := List.mem_iff_getElem.mp ht
    rw [Task.holds_iff hR]
    have := congrArg (·[k]?) h
    simpa [Agenda.rename, hk] using this

namespace Machine.Holds

theorem mono {S : Procedure → Prop} (h : m.Holds R) (hs : ∀ p, R p → S p) : m.Holds S :=
  ⟨fun v hv => (h.stack v hv).mono hs, fun f hf v hv => (h.locals f hf v hv).mono hs,
    fun v hv => (h.cells v hv).mono hs⟩

/-- The machine is one whose values were renamed without effect. -/
theorem onto (hR : R (.standard .print)) (h : m.Holds R) : m.onto (restrict R) m = m := by
  have stack := (Value.map_restrict_iff hR).mpr fun v hv => h.stack v (Array.mem_def.mpr hv)
  have cells := (Value.map_restrict_iff hR).mpr fun v hv => h.cells v (Array.mem_def.mpr hv)
  have hs : m.stack.map (.rename (restrict R)) = m.stack := Array.toList_inj.mp (by simpa using stack)
  have hc : m.store.cells.map (.rename (restrict R)) = m.store.cells :=
    Array.toList_inj.mp (by simpa using cells)
  have hc : m.store.rename (restrict R) = m.store := congrArg Store.mk hc
  simp only [Machine.onto, hs, hc]

theorem of_onto (hR : R (.standard .print)) (h : m.Holds R) {m' : Machine}
    (hm : m'.onto (restrict R) m = m') : m'.Holds R := by
  have stack : m'.stack.map (.rename (restrict R)) = m'.stack := congrArg Machine.stack hm
  have cells : m'.store.cells.map (.rename (restrict R)) = m'.store.cells :=
    congrArg (·.store.cells) hm
  have frames : (m'.onto (restrict R) m).frames = m'.frames := congrArg Machine.frames hm
  refine ⟨fun v hv => ?_, by rw [← frames]; exact h.locals, fun v hv => ?_⟩
  · have := (Value.map_restrict_iff hR).mp (by simpa using congrArg Array.toList stack)
    exact this v (Array.mem_def.mp hv)
  · have := (Value.map_restrict_iff hR).mp (by simpa using congrArg Array.toList cells)
    exact this v (Array.mem_def.mp hv)

end Machine.Holds

/-! A property of all locals is kept if it is kept of those that change. -/

namespace FrameStack

variable {s : FrameStack} {P : Value → Prop}

theorem forall_mem_mapIdx {vs : Array Value} {g : Nat → Value → Value} (h : ∀ v ∈ vs, P v)
    (hg : ∀ k v, P v → P (g k v)) : ∀ v ∈ vs.mapIdx g, P v := by
  intro v hv
  obtain ⟨k, hk, rfl⟩ := Array.mem_iff_getElem.mp hv
  rw [Array.getElem_mapIdx]
  exact hg k _ (h _ (Array.getElem_mem _))

theorem forall_locals_truncate (h : ∀ f ∈ s.frames, ∀ v ∈ f.locals, P v) (n : Nat) :
    ∀ f ∈ (s.truncate n).frames, ∀ v ∈ f.locals, P v := by
  intro f hf
  refine h f ?_
  simp only [truncate, Array.mem_def, Array.toList_shrink] at hf ⊢
  exact List.mem_of_mem_take hf

theorem forall_locals_push (h : ∀ f ∈ s.frames, ∀ v ∈ f.locals, P v) (scope : ScopeId) (level : Nat)
    (link : Option Nat) {locals : Array Value} (hl : ∀ v ∈ locals, P v) :
    ∀ f ∈ (s.push scope level link locals).frames, ∀ v ∈ f.locals, P v := by
  intro f hf
  rcases Array.mem_push.mp hf with hf | rfl
  · exact h f hf
  · exact hl

theorem forall_locals_modify (h : ∀ f ∈ s.frames, ∀ v ∈ f.locals, P v) (i : Nat) {g : Frame → Frame}
    (hg : ∀ f : Frame, (∀ v ∈ f.locals, P v) → ∀ v ∈ (g f).locals, P v) :
    ∀ f ∈ (s.modify i g).frames, ∀ v ∈ f.locals, P v := by
  intro f hf
  obtain ⟨k, hk, rfl⟩ := Array.mem_iff_getElem.mp hf
  simp only [modify, Array.size_modify] at hk
  have old := h _ (Array.getElem_mem hk)
  simp only [modify, Array.getElem_modify]
  split
  · exact hg _ old
  · exact old

theorem forall_locals_setLocal (h : ∀ f ∈ s.frames, ∀ v ∈ f.locals, P v) (i k : Nat) {v : Value}
    (hv : P v) : ∀ f ∈ (s.setLocal i k v).frames, ∀ w ∈ f.locals, P w :=
  forall_locals_modify h i fun _ hf => forall_mem_setIfInBounds hf k hv

theorem of_load (h : ∀ f ∈ s.frames, ∀ v ∈ f.locals, P v) (hvoid : P .void) {slot : Slot} {v : Value}
    (hv : s.load slot = .ok v) : P v := by
  unfold load at hv
  cases hh : s.holder slot .void with
  | error e => simp [hh, Bind.bind, Except.bind] at hv
  | ok i =>
    simp only [hh, Bind.bind, Except.bind, Pure.pure, Except.pure, Except.ok.injEq] at hv
    subst hv
    simp only [localAt]
    cases hl : (s.frames[i]?).bind (·.locals[slot.offset]?) with
    | none => exact hvoid
    | some w =>
      obtain ⟨f, hf, hw⟩ := Option.bind_eq_some_iff.mp hl
      exact h f (Array.mem_of_getElem? hf) w (Array.mem_of_getElem? hw)

end FrameStack

/-- Every procedure in the locals of some frames has a property. -/
def FrameStack.Holds (R : Procedure → Prop) (s : FrameStack) : Prop :=
  ∀ f ∈ s.frames, ∀ v ∈ f.locals, v.Within R

namespace FrameStack.Holds

variable {s : FrameStack}

theorem truncate (h : s.Holds R) (n : Nat) : (s.truncate n).Holds R := forall_locals_truncate h n

theorem modify (h : s.Holds R) (i : Nat) {g : Frame → Frame}
    (hg : ∀ f : Frame, (∀ v ∈ f.locals, v.Within R) → ∀ v ∈ (g f).locals, v.Within R) :
    (s.modify i g).Holds R := forall_locals_modify h i hg

theorem setLocal (h : s.Holds R) (i k : Nat) {v : Value} (hv : v.Within R) :
    (s.setLocal i k v).Holds R := forall_locals_setLocal h i k hv

end FrameStack.Holds

theorem Value.undefinedOf_within (hR : R (.standard .print)) (modes : ModeTable) (m : ModeId) :
    (undefinedOf modes m).Within R := by
  rw [within_iff hR, undefinedOf_rename]

theorem Program.freshLocals_within (hR : R (.standard .print)) (p : Program) (scope : ScopeId) :
    ∀ v ∈ p.freshLocals scope, v.Within R := by
  intro v hv
  obtain ⟨mode, -, rfl⟩ := Array.mem_map.mp hv
  exact Value.undefinedOf_within hR _ _

namespace Machine.Holds

theorem with_frames (h : m.Holds R) {s : FrameStack} (hs : s.Holds R) :
    Machine.Holds R { m with frames := s } := ⟨h.stack, hs, h.cells⟩

theorem with_stack (h : m.Holds R) {S : Array Value} (hS : ∀ v ∈ S, v.Within R) :
    Machine.Holds R { m with stack := S } := ⟨hS, h.locals, h.cells⟩

theorem pop (h : m.Holds R) {S : Array Value} {v : Value} (hS : m.stack = S.push v) :
    v.Within R ∧ Machine.Holds R { m with stack := S } := by
  have := h.stack
  rw [hS] at this
  exact ⟨this v (by simp), h.with_stack fun w hw => this w (by simp [hw])⟩

theorem popMany (h : m.Holds R) (n : Nat) :
    (∀ v ∈ m.stack.toList.drop (m.stack.size - n), v.Within R) ∧
      Machine.Holds R { m with stack := m.stack.shrink (m.stack.size - n) } := by
  refine ⟨fun v hv => h.stack v (Array.mem_def.mpr (List.mem_of_mem_drop hv)),
    h.with_stack fun v hv => h.stack v ?_⟩
  simp only [Array.mem_def, Array.toList_shrink] at hv ⊢
  exact List.mem_of_mem_take hv

theorem push (h : m.Holds R) {v : Value} (hv : v.Within R) :
    Machine.Holds R { m with stack := m.stack.push v } := by
  refine h.with_stack fun w hw => ?_
  rcases Array.mem_push.mp hw with hw | rfl
  · exact h.stack w hw
  · exact hv

theorem load (h : m.Holds R) {slot : Slot} {v : Value} (hv : m.frames.load slot = .ok v) :
    v.Within R :=
  FrameStack.of_load h.locals (fun p hp => absurd hp (by simp [Value.procedures])) hv

theorem get (hR : R (.standard .print)) (h : m.Holds R) {n : Name} {v : Value}
    (hv : m.store.get n = .ok v) : v.Within R := by
  have hs : m.store.rename (restrict R) = m.store := congrArg Machine.store (h.onto hR)
  have hg := m.store.get_rename (restrict R) n
  rw [hs, hv] at hg
  rw [Value.within_iff hR]
  exact (Except.ok.inj hg).symm

theorem opened (hR : R (.standard .print)) (h : m.Holds R) (scope : ScopeId) (level : Nat)
    (link : Option Nat) :
    (m.frames.push scope level link (job.program.freshLocals scope)).Holds R :=
  FrameStack.forall_locals_push h.locals scope level link (job.program.freshLocals_within hR scope)

end Machine.Holds

namespace Exec

/-- What works on values alone makes no procedures. -/
theorem Natural.holds (hR : R (.standard .print)) {x : Exec Agenda}
    (hx : Natural (restrict R) (Agenda.rename (restrict R)) x x) (h : m.Holds R) :
    wp x (fun work m' => m'.Holds R ∧ Agenda.Holds R work) (fun _ m' => m'.Holds R) m := by
  have same := hx m m
  rw [h.onto hR] at same
  unfold wp
  cases hm : x m with
  | ok work m' =>
    simp only [hm, EStateM.Result.ok.injEq] at same
    exact ⟨h.of_onto hR same.2.symm, (Agenda.holds_iff hR).mpr same.1.symm⟩
  | error s m' =>
    simp only [hm, EStateM.Result.error.injEq, true_and] at same
    exact h.of_onto hR same.symm

theorem enter_holds (hR : R (.standard .print)) (h : m.Holds R) (scope : ScopeId) :
    wp (enter job scope) (fun _ m' => m'.Holds R) (fun _ m' => m'.Holds R) m := by
  simp only [enter, wp_bind, wp_get, wp_lift, wp_enterAt]
  refine ⟨fun link _ => ⟨fun _ _ => ?_, fun _ _ => h⟩, fun _ _ => h⟩
  exact h.with_frames (h.opened hR scope _ _)

theorem enclosed_holds (hR : R (.standard .print)) (h : m.Holds R) (scope : ScopeId)
    (work outer : Agenda) (hw : work.Holds R) (ho : outer.Holds R) :
    wp (do return (← enclosed job scope work) ++ outer)
      (fun work m' => m'.Holds R ∧ Agenda.Holds R work) (fun _ m' => m'.Holds R) m := by
  simp only [enclosed, wp_bind]
  refine wp_mono (enter_holds hR h scope) (fun before m' hm => ⟨hm, ?_⟩) fun _ _ h => h
  intro t ht
  simp only [List.append_assoc, List.mem_append, List.mem_singleton] at ht
  rcases ht with ht | rfl | ht
  · exact hw t ht
  · simp [Task.Holds, Task.values]
  · exact ho t ht

theorem holds_of_values {A : Agenda} (h : ∀ t ∈ A, t.values = []) : A.Holds R := by
  intro t ht v hv
  rw [h t ht] at hv
  cases hv

theorem callValue_holds (h : m.Holds R) (callee : Value)
    {args : List Value} (ha : ∀ v ∈ args, v.Within R) (site : NodeId) :
    wp (callValue job callee args site) (fun work m' => m'.Holds R ∧ Agenda.Holds R work)
      (fun _ m' => m'.Holds R) m := by
  have same {m' : Machine} (hs : m'.stack = m.stack) (hf : m'.frames = m.frames)
      (hc : m'.store = m.store) : m'.Holds R :=
    ⟨hs ▸ h.stack, hf ▸ h.locals, hc ▸ h.cells⟩
  unfold callValue
  split
  · next p =>
    cases p with
    | print => exact ⟨h, by simpa [Agenda.Holds, Task.Holds, Task.values] using ha⟩
    | newline => exact ⟨same rfl rfl rfl, by simp [Agenda.Holds]⟩
  · simp only [callRoutine, wp_bind, wp_get, wp_ite, wp_fail]
    refine ⟨fun _ => h, fun _ => ?_⟩
    split
    · simp only [wp_pure, wp_bind, wp_count, wp_modify]
      refine ⟨same rfl rfl rfl, ?_⟩
      simpa [Agenda.Holds, Task.Holds, Task.values] using ha
    · exact h
  · exact h
  · exact h
  · exact h

theorem print_holds (hR : R (.standard .print)) (h : m.Holds R) {values : List Value}
    (hv : ∀ v ∈ values, v.Within R) :
    wp (print job values) (fun work m' => m'.Holds R ∧ Agenda.Holds R work)
      (fun _ m' => m'.Holds R) m := by
  have printed {vs : List Value} (hvs : ∀ v ∈ vs, v.Within R) :
      Agenda.Holds R [.print vs] := by
    simpa [Agenda.Holds, Task.Holds, Task.values] using hvs
  have emitted {t : Transput} : Machine.Holds R { m with transput := t } :=
    ⟨h.stack, h.locals, h.cells⟩
  cases values with
  | nil => exact ⟨h, by simp [Agenda.Holds]⟩
  | cons v rest =>
    have hrest : ∀ w ∈ rest, w.Within R := fun w hw => hv w (List.mem_cons_of_mem _ hw)
    have hv := hv v (List.mem_cons_self ..)
    have parts {vs : List Value} (hvs : ∀ w ∈ vs, w.Within R) : ∀ w ∈ vs ++ rest, w.Within R := by
      intro w hw
      rcases List.mem_append.mp hw with hw | hw
      · exact hvs w hw
      · exact hrest w hw
    cases v with
    | row r =>
      have hr := Value.within_row.mp hv
      exact ⟨h, printed (parts fun w hw => hr w (Array.mem_def.mpr hw))⟩
    | struct vs =>
      have hvs := Value.within_struct.mp hv
      exact ⟨h, printed (parts fun w hw => hvs w (Array.mem_def.mpr hw))⟩
    | union variant v => 
      refine ⟨h, printed fun w hw => ?_⟩
      rcases List.mem_cons.mp hw with rfl | hw
      · exact Value.within_union.mp hv
      · exact hrest w hw
    | name n =>
      simp only [print, wp_bind, wp_read, wp_pure]
      refine ⟨fun w hw => ⟨h, printed fun u hu => ?_⟩, fun _ _ => h⟩
      rcases List.mem_cons.mp hu with rfl | hu
      · exact h.get hR hw
      · exact hrest u hu
    | procedure p =>
      cases p with
      | standard p =>
        cases p with
        | newline => exact ⟨emitted, printed hrest⟩
        | print => exact ⟨h, printed hrest⟩
      | routine text environ => exact h
    | undefined mode => exact h
    | _ => exact ⟨emitted, printed hrest⟩

theorem alternatives_holds (h : m.Holds R) (node : NodeId) (items : List NodeId) :
    wp (alternatives job node items) (fun _ m' => m'.Holds R) (fun _ m' => m'.Holds R) m := by
  simp only [alternatives, wp_bind, wp_get]
  split
  · exact h
  · exact ⟨h.stack, h.locals, h.cells⟩

theorem elaborate_holds (hR : ∀ p, R (.standard p)) (h : m.Holds R) (node : NodeId)
    (hnew : ∀ scope params body environ,
      job.program.tree.kind node = .routineText scope params body →
      (do m.frames.handle (← m.frames.resolve (job.program.environLevel node))) = .ok environ →
      R (.routine node environ)) :
    wp (elaborate job node) (fun work m' => m'.Holds R ∧ Agenda.Holds R work)
      (fun _ m' => m'.Holds R) m := by
  by_cases hv : onValues (job.program.tree.kind node)
  · have fixed (p : StandardProcedure) : restrict R (.standard p) = .standard p := by
      simp [restrict, hR p]
    exact (elaborate_natural fixed job hv).holds (hR .print) h
  have enclosed {m' : Machine} (h : m'.Holds R) (scope : ScopeId) (clause : NodeId)
      (enquiry : Bool) (inner : Agenda) (hi : inner.Holds R) (baseline : Nat) :=
    @enclosed_holds R job m' (hR .print) h scope (.clause clause enquiry :: inner)
      [.yields (job.program.tree.mode node) baseline]
      (by simpa [Agenda.Holds, Task.Holds, Task.values] using hi)
      (holds_of_values (by simp [Task.values]))
  have nothing {t : Task} (ht : t.values = []) : Agenda.Holds R [t] :=
    holds_of_values (by simp [ht])
  cases hk : job.program.tree.kind node with
  | closed scope serial =>
    simp only [elaborate, hk, wp_bind, wp_depth]
    simpa only [wp_bind] using enclosed h scope serial false [] (holds_of_values (by simp)) _
  | conditional scope enquiry thenPart elsePart =>
    simp only [elaborate, hk, wp_bind, wp_depth]
    simpa only [wp_bind] using enclosed h scope enquiry true
      [.branch thenPart elsePart (job.program.tree.mode node)] (nothing rfl) _
  | integerCase scope enquiry items outPart | conformityCase scope enquiry items outPart =>
    rw [elaborate, wp_bind, wp_depth]
    simp only [hk]
    rw [wp_bind]
    refine wp_mono (alternatives_holds h node _) (fun units m' hm => ?_) fun _ _ h => h
    exact enclosed hm scope enquiry true [_] (nothing rfl) _
  | identifier slot =>
    simp only [elaborate, hk, wp_bind, wp_depth, wp_load, wp_push, wp_pure]
    refine ⟨fun v hv => ⟨fun _ => h, fun _ => ⟨h.push (h.load hv), by simp [Agenda.Holds]⟩⟩,
      fun _ _ => h⟩
  | routineText scope params body =>
    simp only [elaborate, hk, wp_bind, wp_depth, wp_get, wp_lift, wp_push, wp_pure]
    refine ⟨fun environ he => ⟨fun _ => h, fun _ => ⟨h.push ?_, by simp [Agenda.Holds]⟩⟩,
      fun _ _ => h⟩
    exact Value.within_procedure.mpr (hnew scope params body environ hk he)
  | jump id =>
    simp only [elaborate, hk, wp_bind, wp_depth]
    refine wp_mono (jump_still id) (fun _ _ h => h.elim) fun _ m' hm => ?_
    rw [hm]
    exact h
  | _ => simp [hk, onValues] at hv

theorem clause_holds (h : m.Holds R) (node : NodeId) (enquiry : Bool) :
    wp (clause job node enquiry) (fun work m' => m'.Holds R ∧ Agenda.Holds R work)
      (fun _ m' => m'.Holds R) m := by
  have steps (chain : List ChainStep) (baseline : Nat) (ending : Agenda)
      (he : ∀ t ∈ ending, t.values = []) :
      Agenda.Holds R (chain.map (·.task baseline) ++ ending) := by
    refine holds_of_values fun t ht => ?_
    rcases List.mem_append.mp ht with ht | ht
    · exact ChainStep.forall_task (P := fun t => t.values = []) (fun _ => rfl) rfl chain t ht
    · exact he t ht
  simp only [clause]
  split
  · next scope range hk =>
    have ending : ∀ t ∈ (if !enquiry && job.program.tree.mode node = .void then
        [Task.cut m.stack.size] else []), t.values = [] := by
      split <;> simp [Task.values]
    simp only [wp_bind, wp_depth, wp_ite]
    refine ⟨fun _ => ?_, fun _ => ?_⟩
    · simp only [announce, wp_bind, wp_get, wp_lift, wp_modify, wp_pure]
      refine ⟨fun i _ => ⟨fun handle _ => ⟨h.with_frames ?_, ?_⟩, fun _ _ => h⟩, fun _ _ => h⟩
      · exact FrameStack.Holds.modify h.locals i fun f hf => hf
      · exact steps _ _ _ (by simpa [Task.values] using ending)
    · simp only [linearChain, wp_bind, wp_get]
      split
      · simp only [wp_bind, wp_count, wp_pure]
        exact ⟨⟨h.stack, h.locals, h.cells⟩, steps _ _ _ ending⟩
      · simp only [wp_bind, wp_annotate, wp_count, wp_pure]
        exact ⟨⟨h.stack, h.locals, h.cells⟩, steps _ _ _ ending⟩
  · exact ⟨h, holds_of_values (by simp [Task.values])⟩

theorem conform_holds (hR : R (.standard .print)) (h : m.Holds R) (units : List NodeId)
    (outPart : Option NodeId) (mode : ModeId) :
    wp (conform job units outPart mode) (fun work m' => m'.Holds R ∧ Agenda.Holds R work)
      (fun _ m' => m'.Holds R) m := by
  simp only [conform, wp_bind, wp_pop]
  refine ⟨fun S v hS => ?_, fun _ => h⟩
  obtain ⟨hv, hm⟩ := h.pop hS
  split
  · next variant payload =>
    simp only [wp_bind, wp_lift]
    refine ⟨fun chosen _ => ?_, fun _ _ => hm⟩
    split
    · next a specifier _ =>
      simp only [wp_bind]
      refine wp_mono (enter_holds hR hm a.scope) (fun before m' hm' => ⟨hm', ?_⟩) fun _ _ h => h
      have bound : (if (job.oracle.variants specifier).isSome then .union variant payload
          else payload : Value).Within R := by
        split
        · exact hv
        · exact Value.within_union.mp hv
      intro t ht
      simp only [List.mem_append, List.mem_map, List.mem_cons,
        List.not_mem_nil, or_false] at ht
      rcases ht with ⟨slot, -, rfl⟩ | rfl | rfl
      · simpa [Task.Holds, Task.values] using bound
      · simp [Task.Holds, Task.values]
      · simp [Task.Holds, Task.values]
    · simp only [wp_bind, wp_ite, wp_fail]
      refine ⟨fun _ => hm, fun _ => ?_⟩
      exact (orUndefined_natural job mode outPart).holds hR hm
  · exact hm
  · exact hm

theorem store_holds (h : m.Holds R) (slot : Slot) {v : Value} (hv : v.Within R) :
    wp (store slot v) (fun _ m' => m'.Holds R) (fun _ m' => m'.Holds R) m := by
  rw [wp_store]
  exact ⟨fun i _ => h.with_frames (FrameStack.Holds.setLocal h.locals i slot.offset hv),
    fun _ _ => h⟩

theorem iteration_values (i : Iteration) : ∀ t ∈ iterate.iteration i, t.values = [] := by
  unfold iterate.iteration
  split <;> simp [Task.values]

theorem iterate_holds (hR : R (.standard .print)) (h : m.Holds R) (i : Iteration) :
    wp (iterate job i) (fun work m' => m'.Holds R ∧ Agenda.Holds R work)
      (fun _ m' => m'.Holds R) m := by
  have counted : wp (setCounter i) (fun _ m' => m'.Holds R) (fun _ m' => m'.Holds R) m := by
    unfold setCounter
    split
    · exact store_holds h _ fun p hp => absurd hp (by simp [Value.procedures])
    · exact h
  have renewed {m : Machine} (h : m.Holds R) :
      wp (renewBody job i) (fun _ m' => m'.Holds R) (fun _ m' => m'.Holds R) m := by
    rw [renewBody, wp_ite]
    refine ⟨fun _ => h, fun _ => ?_⟩
    rw [resetLocals, wp_modify]
    refine h.with_frames (FrameStack.Holds.modify h.locals i.body fun f hf => ?_)
    refine FrameStack.forall_mem_mapIdx hf fun k v hv => ?_
    split
    · exact Value.undefinedOf_within hR _ _
    · exact hv
  simp only [iterate, wp_ite, wp_bind]
  refine ⟨fun _ => ?_, fun _ => ⟨h, by simp [Agenda.Holds]⟩⟩
  refine wp_mono counted (fun _ m₁ h₁ => ?_) fun _ _ h => h
  rw [wp_bind]
  refine wp_mono (renewed h₁) (fun _ m₂ h₂ => ⟨h₂, ?_⟩) fun _ _ h => h
  refine holds_of_values ?_
  split
  · simp [Task.values]
  · exact iteration_values _

theorem enterRoutine_holds (hR : R (.standard .print)) (h : m.Holds R) (scope : ScopeId)
    (environ : Nat) {args : List Value} (ha : ∀ v ∈ args, v.Within R) (body : NodeId) :
    wp (enterRoutine job scope environ args body)
      (fun work m' => m'.Holds R ∧ Agenda.Holds R work) (fun _ m' => m'.Holds R) m := by
  simp only [enterRoutine, wp_bind, wp_enterAt, wp_modify, wp_pure]
  refine ⟨fun _ _ => ⟨h.with_frames ?_, holds_of_values (by simp [Task.values])⟩, fun _ _ => h⟩
  refine FrameStack.Holds.modify (h.opened hR scope _ _) _ fun f hf => ?_
  refine FrameStack.forall_mem_mapIdx hf fun k v hv => ?_
  rw [List.getD_eq_getElem?_getD]
  cases hw : args[k]? with
  | none => exact hv
  | some w => exact ha w (List.mem_of_getElem? hw)

/-- A step makes no procedures but the values of routine texts. -/
theorem exec_holds (hR : ∀ p, R (.standard p)) (h : m.Holds R) {t : Task} (ht : t.Holds R)
    (hnew : ∀ node scope params body environ, t = .elaborate node →
      job.program.tree.kind node = .routineText scope params body →
      (do m.frames.handle (← m.frames.resolve (job.program.environLevel node))) = .ok environ →
      R (.routine node environ)) :
    wp (t.exec job) (fun work m' => m'.Holds R ∧ Agenda.Holds R work)
      (fun _ m' => m'.Holds R) m := by
  have print := hR .print
  by_cases hv : t.onValues
  · have hn := exec_natural (ρ := restrict R) job hv
    rw [(Task.holds_iff print).mp ht] at hn
    exact hn.holds print h
  have nothing : Agenda.Holds R [] := by simp [Agenda.Holds]
  cases t with
  | unit node =>
    simp only [Task.exec, unit, wp_bind, wp_count, wp_get]
    have same : Machine.Holds R { m with
        counters := m.counters.map fun c => { c with units := c.units + 1 } } :=
      ⟨h.stack, h.locals, h.cells⟩
    split
    · exact ⟨same, holds_of_values (by simp [Task.values])⟩
    · refine ⟨same, holds_of_values fun t ht => ?_⟩
      simp only [List.mem_cons, List.not_mem_nil, or_false] at ht
      rcases ht with rfl | rfl
      · split <;> rfl
      · rfl
    · exact ⟨same, holds_of_values (by simp [Task.values])⟩
  | elaborate node =>
    exact elaborate_holds hR h node fun scope params body environ => hnew node scope params body environ rfl
  | settle node => exact ⟨⟨h.stack, h.locals, h.cells⟩, nothing⟩
  | leave depth => exact ⟨h.with_frames (FrameStack.Holds.truncate h.locals depth), nothing⟩
  | clause node enquiry => exact clause_holds h node enquiry
  | labelled c =>
    exact ⟨h.with_frames (FrameStack.Holds.modify h.locals c.frame fun f hf => hf), nothing⟩
  | conform units outPart mode => exact conform_holds print h units outPart mode
  | store slot v =>
    simp only [Task.exec, wp_bind]
    exact wp_mono (store_holds h slot (ht v (by simp [Task.values])))
      (fun _ _ h => ⟨h, nothing⟩) fun _ _ h => h
  | bind slot =>
    simp only [Task.exec, wp_bind, wp_pop]
    refine ⟨fun S v hS => ?_, fun _ => h⟩
    obtain ⟨hv, hm⟩ := h.pop hS
    exact wp_mono (store_holds hm slot hv) (fun _ _ h => ⟨h, nothing⟩) fun _ _ h => h
  | declare slot init =>
    simp only [Task.exec, declare, wp_bind, wp_pop, wp_lift]
    refine ⟨fun S v hS => ⟨fun name _ => ?_, fun _ _ => (h.pop hS).2⟩, fun _ => h⟩
    obtain ⟨hv, hm⟩ := h.pop hS
    refine wp_mono (store_holds hm slot hv) (fun _ m' h => ?_) fun _ _ h => h
    split <;> exact ⟨h, holds_of_values (by simp [Task.values])⟩
  | enterLoop i =>
    simp only [Task.exec, enterLoop, wp_bind]
    exact wp_mono (enter_holds print h _)
      (fun _ _ h => ⟨h, holds_of_values (by simp [Task.values])⟩) fun _ _ h => h
  | enterBody i =>
    simp only [Task.exec, enterBody, wp_bind]
    exact wp_mono (enter_holds print h _)
      (fun _ _ h => ⟨h, holds_of_values (by simp [Task.values])⟩) fun _ _ h => h
  | iterate i => exact iterate_holds print h i
  | afterWhile i =>
    simp only [Task.exec, afterWhile, popBool, wp_bind, wp_pop, wp_lift, wp_pure]
    refine ⟨fun S v hS => ⟨fun b _ => ⟨(h.pop hS).2, holds_of_values ?_⟩,
      fun _ _ => (h.pop hS).2⟩, fun _ => h⟩
    split
    · exact iteration_values i
    · simp
  | afterUntil i =>
    simp only [Task.exec, afterUntil, popBool, wp_bind, wp_pop, wp_lift, wp_pure]
    refine ⟨fun S v hS => ⟨fun b _ => ⟨(h.pop hS).2, holds_of_values ?_⟩,
      fun _ _ => (h.pop hS).2⟩, fun _ => h⟩
    split <;> simp [Task.values]
  | advance i =>
    simp only [Task.exec, advance, wp_ite, wp_pure]
    refine ⟨fun _ => ?_, fun _ => ⟨h, holds_of_values (by simp [Task.values])⟩⟩
    split
    · exact ⟨h, holds_of_values (by simp [Task.values])⟩
    · exact h
  | call callee count site =>
    simp only [Task.exec, wp_bind, wp_popMany]
    refine ⟨fun _ => h, fun _ => ?_⟩
    obtain ⟨ha, hm⟩ := h.popMany count
    exact callValue_holds hm callee ha site
  | operate slot count site =>
    simp only [Task.exec, operate, wp_bind, wp_popMany, wp_load]
    refine ⟨fun _ => h, fun _ => ⟨fun v _ => ?_, fun _ _ => (h.popMany count).2⟩⟩
    obtain ⟨ha, hm⟩ := h.popMany count
    exact callValue_holds hm v ha site
  | enterRoutine scope environ args body =>
    exact enterRoutine_holds print h scope environ ht body
  | endCall => exact ⟨⟨h.stack, h.locals, h.cells⟩, nothing⟩
  | print values => exact print_holds print h ht
  | coerce kind node operand baseline =>
    have hk : kind = .deprocedure := by simpa [Task.onValues] using hv
    subst hk
    simp only [Task.exec, coerce, wp_bind, wp_pop]
    refine ⟨fun S v hS => ?_, fun _ => h⟩
    exact callValue_holds (h.pop hS).2 v (by simp) node
  | _ => simp [Task.onValues] at hv

end Exec

namespace Machine.Holds

/-- A signal makes no values. -/
theorem undo (h : m.Holds R) (A : Agenda) : (m.undo A).Holds R := by
  induction A generalizing m with
  | nil => exact h
  | cons t A ih =>
    rw [Machine.undo_cons]
    apply ih
    cases t with
    | leave depth => exact h.with_frames (FrameStack.Holds.truncate h.locals depth)
    | endCall => exact ⟨h.stack, h.locals, h.cells⟩
    | _ => exact h

theorem caught (h : m.Holds R) (c : LabelledClause) (j : Jump) : (c.caught j m).Holds R := by
  refine ⟨fun v hv => h.stack v ?_, FrameStack.Holds.truncate h.locals _, h.cells⟩
  simp only [LabelledClause.caught, Array.mem_def, Array.toList_shrink] at hv ⊢
  exact List.mem_of_mem_take hv

end Machine.Holds

end Algol68
