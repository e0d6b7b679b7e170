import Algol68.Proofs.Scope.Tasks

/-! What each task does to the activations there are. A task leaves them as they are, opens one on top,
or closes some; it opens one inside of the innermost one or, where it enters a routine, inside of the
environ. -/

namespace Algol68

open Outline

variable {job : Job} {m m' : Machine}

/-- The activations are the same, linked in the same way. -/
structure Machine.Stays (m m' : Machine) : Prop where
  keys : m'.frames.hollow.map Frame.key = m.frames.hollow.map Frame.key
  nextSerial : m'.frames.nextSerial = m.frames.nextSerial

/-- One more activation lies on top, linked to the one at a place. -/
def Machine.Opens (link : Nat) (m m' : Machine) : Prop :=
  ∃ f, m'.frames.hollow = m.frames.hollow ++ [f] ∧ f.staticLink = some link ∧
    f.serial = m.frames.nextSerial ∧ m'.frames.nextSerial = m.frames.nextSerial + 1

/-- What a task does to the activations. -/
def Task.Turns (m m' : Machine) : Task → Prop
  | .elaborate _ | .conform .. => m.Stays m' ∨ m.Opens m.outline.top m'
  | .enterLoop _ | .enterBody _ => m.Opens m.outline.top m'
  | .enterRoutine _ environ _ _ => m.Opens environ m'
  | .leave depth => m'.frames = m.frames.truncate depth
  | _ => m.Stays m'

theorem Machine.Still.stays (h : m.Still job m') : m.Stays m' :=
  ⟨by rw [show m'.frames.hollow = m.frames.hollow from congrArg Outline.frames h.outline],
    h.nextSerial⟩

theorem Machine.Stays.refl (m : Machine) : m.Stays m := ⟨rfl, rfl⟩

theorem Machine.Stays.trans {m₁ m₂ m₃ : Machine} (h : m₁.Stays m₂) (h' : m₂.Stays m₃) :
    m₁.Stays m₃ := ⟨h'.keys.trans h.keys, h'.nextSerial.trans h.nextSerial⟩

theorem Machine.Opens.of_still {m₀ : Machine} {link : Nat} (h : m.Opens link m')
    (hm : m₀.Still job m) : m₀.Opens link m' := by
  obtain ⟨f, hf, hl, hs, hn⟩ := h
  rw [show m.frames.hollow = m₀.frames.hollow from congrArg Outline.frames hm.outline] at hf
  rw [hm.nextSerial] at hs hn
  exact ⟨f, hf, hl, hs, hn⟩

theorem List.map_key_modify {fs : List Frame} {k : Nat} {g : Frame → Frame}
    (hg : ∀ x, (g x).key = x.key) : (fs.modify k g).map Frame.key = fs.map Frame.key := by
  apply List.ext_getElem?
  intro i
  rw [List.getElem?_map, List.getElem?_map, List.getElem?_modify]
  cases fs[i]? with
  | none => rfl
  | some x => by_cases hk : k = i <;> simp [hk, hg]

namespace Exec

variable {x : Exec Agenda} {E : Signal → Machine → Prop}

/-- The operation leaves the activations as they are. -/
def Rests (x : Exec Agenda) (m : Machine) : Prop :=
  wp x (fun _ m' => m.Stays m') (fun _ _ => True) m

theorem Quiet.rests (hq : Quiet job x) : Rests x m :=
  wp_mono (hq m) (fun _ _ h => h.1.stays) fun _ _ _ => trivial

section

variable (hs : m.outline.Sound job m.frames.nextSerial)

include hs in
theorem enter_opens (scope : ScopeId) : wp (enter job scope)
    (fun _ m' => m.Opens m.outline.top m') (fun _ _ => True) m := by
  refine wp_enter_opened hs scope (fun _ _ _ => trivial) fun m' ho hn => ?_
  exact ⟨_, congrArg Outline.frames ho, rfl, rfl, hn⟩

include hs in
theorem enclosed_opens (scope : ScopeId) (work outer : Agenda) :
    wp (do return (← enclosed job scope work) ++ outer)
      (fun _ m' => m.Opens m.outline.top m') (fun _ _ => True) m := by
  simp only [enclosed, wp_bind]
  exact wp_mono (enter_opens hs scope) (fun _ _ h => h) fun _ _ h => h

include hs in
theorem elaborate_turns (n : NodeId) : wp (elaborate job n)
    (fun _ m' => (Task.elaborate n).Turns m m') (fun _ _ => True) m := by
  by_cases hc : changesFrame (job.program.tree.kind n) = false
  · exact wp_mono (elaborate_quiet n hc).rests (fun _ _ h => .inl h) fun _ _ h => h
  have opens {work outer : Agenda} (scope : ScopeId) :
      wp (do return (← enclosed job scope work) ++ outer)
        (fun _ m' => (Task.elaborate n).Turns m m') (fun _ _ => True) m :=
    wp_mono (enclosed_opens hs scope work outer) (fun _ _ h => .inr h) fun _ _ h => h
  simp only [wp_bind] at opens
  cases hk : job.program.tree.kind n with
  | closed scope serial | conditional scope enquiry thenPart elsePart =>
    simp only [elaborate, hk, wp_bind, wp_depth]
    exact opens scope
  | integerCase scope enquiry items outPart | conformityCase scope enquiry items outPart =>
    simp only [elaborate, hk, wp_bind, wp_depth]
    refine wp_mono (alternatives_still (by simp [Program.chainOf, hk])) (fun units m' hm => ?_)
      fun _ _ h => h.elim
    refine wp_mono (enclosed_opens (hm.1.sound hs) scope _ _) (fun _ _ h => .inr ?_)
      fun _ _ h => h
    rw [← hm.1.outline]
    exact h.of_still hm.1
  | jump id =>
    simp only [elaborate, hk, wp_bind, wp_depth]
    exact wp_mono (jump_still id) (fun _ _ h => h.elim) fun _ _ _ => trivial
  | _ => simp [hk, changesFrame] at hc

theorem callValue_rests (callee : Value) (args : List Value) (site : NodeId) :
    Rests (callValue job callee args site) m := by
  unfold callValue
  split
  · exact (@callStandard_quiet job args _).rests
  · simp only [Rests, callRoutine, wp_bind, wp_get, wp_ite, wp_fail]
    refine ⟨fun _ => trivial, fun _ => ?_⟩
    split
    · exact ⟨rfl, rfl⟩
    · trivial
  all_goals trivial

include hs in
theorem clause_rests (hv : m.outline.Vacant) (n : NodeId) (enquiry : Bool) :
    Rests (clause job n enquiry) m := by
  simp only [clause]
  split
  · next scope range hk =>
    simp only [Rests, wp_bind, wp_depth, wp_ite]
    refine ⟨fun _ => ?_, fun hl => ?_⟩
    · refine wp_mono (wp_announce hs hv n _ _) ?_ fun _ _ h => h.elim
      rintro c m' ⟨-, hm, -⟩
      have ho := m.announced_outline ⟨n, m.stack.size⟩
      rw [← hm] at ho
      refine ⟨?_, by rw [hm]; rfl⟩
      rw [show m'.frames.hollow = _ from congrArg Outline.frames ho]
      exact List.map_key_modify fun _ => rfl
    · exact wp_mono (linearChain_still hk hl) (fun _ _ h => h.1.stays) fun _ _ h => h.elim
  · exact .refl m

include hs in
theorem conform_turns (units : List NodeId) (outPart : Option NodeId) (mode : ModeId) :
    wp (conform job units outPart mode) (fun _ m' => m.Stays m' ∨ m.Opens m.outline.top m')
      (fun _ _ => True) m := by
  simp only [conform, wp_bind, wp_pop]
  refine ⟨fun S v _ => ?_, fun _ => trivial⟩
  have hm : m.Still job { m with stack := S } := m.still_stack S
  split
  · simp only [wp_bind, wp_lift]
    refine ⟨fun chosen _ => ?_, fun _ _ => trivial⟩
    split
    · next a _ _ =>
      simp only [wp_bind]
      refine wp_mono (enter_opens (m := { m with stack := S }) hs a.scope) (fun _ _ h => .inr ?_)
        fun _ _ h => h
      exact h.of_still hm
    · simp only [wp_bind, wp_ite, wp_fail]
      refine ⟨fun _ => trivial, fun _ => ?_⟩
      refine wp_mono (orUndefined_quiet mode outPart).rests (fun _ _ h => .inl ?_) fun _ _ h => h
      exact hm.stays.trans h
  all_goals trivial

theorem iterate_rests (i : Iteration) : Rests (iterate job i) m := by
  simp only [Rests, iterate, wp_ite, wp_bind]
  refine ⟨fun _ => ?_, fun _ => .refl m⟩
  refine wp_mono (@setCounter_still job m i) (fun _ m₁ h₁ => ?_) fun _ _ _ => trivial
  rw [wp_bind]
  refine wp_mono (renewBody_still i) (fun _ m₂ h₂ => ?_) fun _ _ _ => trivial
  exact (h₁.trans h₂).stays

theorem enterRoutine_opens_at (scope : ScopeId) (environ : Nat) (args : List Value)
    (body : NodeId) : wp (enterRoutine job scope environ args body)
      (fun _ m' => m.Opens environ m') (fun _ _ => True) m := by
  simp only [enterRoutine, wp_bind]
  refine wp_enterAt_opened scope environ (fun _ _ _ => trivial) fun m₁ ho hn => ?_
  simp only [wp_bind, wp_modify, wp_pure]
  refine ⟨job.activation scope environ m.frames.nextSerial, ?_, rfl, rfl, hn⟩
  have hf : m₁.frames.hollow = _ := congrArg Outline.frames ho
  exact (FrameStack.hollow_modify_locals _ _ fun f => by simp [Frame.hollow]).trans hf

include hs in
/-- What a task does to the activations, if it completes. -/
theorem exec_turns {t : Task} (ha : m.outline.Admits t) :
    wp (t.exec job) (fun _ m' => t.Turns m m') (fun _ _ => True) m := by
  by_cases hq : t.quiet
  · refine wp_mono (exec_quiet hq).rests (fun _ _ h => ?_) fun _ _ h => h
    cases t <;> first | exact h | cases hq
  by_cases hc : t.calls
  · have rests : Rests (t.exec job) m :=
      wp_calls hc (fun _ _ _ => trivial) fun callee args site S _ =>
        wp_mono (callValue_rests callee args site)
          (fun _ _ h => (@Machine.still_stack job m S).stays.trans h) fun _ _ h => h
    refine wp_mono rests (fun _ _ h => ?_) fun _ _ h => h
    cases t <;> first | exact h | cases hc
  cases t with
  | elaborate n => exact elaborate_turns hs n
  | clause n enquiry => exact clause_rests hs ha n enquiry
  | conform units outPart mode => exact conform_turns hs units outPart mode
  | enterLoop i | enterBody i =>
    simp only [Task.exec, enterLoop, enterBody, wp_bind]
    exact wp_mono (enter_opens hs _) (fun _ _ h => h) fun _ _ h => h
  | iterate i => exact iterate_rests i
  | enterRoutine scope environ args body => exact enterRoutine_opens_at scope environ args body
  | call | operate => exact absurd rfl hc
  | coerce kind node operand baseline =>
    have hk : kind ≠ .deprocedure := fun hk => hc (hk ▸ rfl)
    exact (coerce_quiet kind node operand baseline hk).rests
  | leave depth => rfl
  | endCall => exact ⟨rfl, rfl⟩
  | labelled c =>
    refine ⟨?_, rfl⟩
    have : (m.frames.modify c.frame Frame.vacate).hollow =
        m.frames.hollow.modify c.frame Frame.vacate :=
      FrameStack.hollow_modify _ _ Frame.hollow_vacate
    change (m.frames.modify c.frame Frame.vacate).hollow.map Frame.key = _
    rw [this]
    exact List.map_key_modify fun _ => rfl
  | afterWhile i | afterUntil i =>
    simp only [Task.exec, afterWhile, afterUntil, popBool, wp_bind, wp_pop, wp_lift, wp_pure]
    exact ⟨fun S v _ => ⟨fun b _ => ⟨rfl, rfl⟩, fun _ _ => trivial⟩, fun _ => trivial⟩
  | advance i =>
    simp only [Task.exec, advance, wp_ite, wp_pure]
    refine ⟨fun _ => ?_, fun _ => .refl m⟩
    split
    · exact .refl m
    · trivial
  | _ => exact absurd rfl hq

end

end Exec

end Algol68
