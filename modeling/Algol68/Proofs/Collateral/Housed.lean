import Algol68.Proofs.Memo.Twin
import Algol68.Proofs.Scope.Liveness

/-! Clauses run in frames that the evaluation they belong to opened, and that it closes behind them. So
what is noted on an older frame, and a jump to a clause in one, are none of the evaluation's doing. -/

namespace Algol68

open Outline (Along Admits)

variable {job : Job} {A A' B before after : Agenda} {n m m' : Machine} {t : Task} {u : NodeId}

/-- Whether a task is part of what is done in a frame of its own. -/
def Task.housed : Task → Bool
  | .clause .. | .labelled _ | .iterate _ | .afterWhile _ | .afterUntil _ | .advance _ => true
  | _ => false

/-- The frame that is innermost is closed later. -/
def Agenda.Leaves (A : Agenda) : Prop := ∃ depth, .leave depth ∈ A

/-- What is done in a frame of its own is done before a frame is closed. -/
def Agenda.Housed : Agenda → Prop
  | [] => True
  | t :: A => (t.housed → Leaves A) ∧ Housed A

namespace Agenda

theorem Leaves.append_left (h : Leaves B) (A : Agenda) : Leaves (A ++ B) :=
  h.imp fun _ hd => List.mem_append_right A hd

theorem Housed.append (hA : A.Housed) (hB : B.Housed) : Housed (A ++ B) := by
  induction A with
  | nil => exact hB
  | cons t A ih =>
    exact ⟨fun ht => (hA.1 ht).imp fun _ hd => List.mem_append_left B hd, ih hA.2⟩

/-- Any work may be done in a frame that is closed behind it. -/
theorem Leaves.housed (h : B.Leaves) (hB : B.Housed) (A : Agenda) : Housed (A ++ B) := by
  induction A with
  | nil => exact hB
  | cons t A ih => exact ⟨fun _ => h.append_left A, ih⟩

theorem Housed.of_append (h : Housed (A ++ B)) : B.Housed := by
  induction A with
  | nil => exact h
  | cons t A ih => exact ih h.2

theorem Housed.leaves (h : Housed (before ++ t :: after)) (ht : t.housed) : after.Leaves :=
  h.of_append.1 ht

theorem housed_of_plain (h : ∀ t ∈ A, t.plain) : A.Housed := by
  induction A with
  | nil => trivial
  | cons t A ih =>
    refine ⟨fun ht => ?_, ih fun u hu => h u (List.mem_cons_of_mem _ hu)⟩
    have plain := h t (List.mem_cons_self ..)
    cases t with
    | clause | labelled | iterate | afterWhile | afterUntil | advance => cases plain
    | _ => cases ht

end Agenda

namespace Exec

open Agenda

theorem enclosed_housed (scope : ScopeId) (work outer : Agenda) (ho : ∀ t ∈ outer, t.plain) :
    wp (do return (← enclosed job scope work) ++ outer) (fun work _ => work.Housed) (fun _ _ => True)
      m := by
  simp only [enclosed, wp_bind]
  refine wp_mono (Rote.enter job scope m) (fun depth m' _ => ?_) fun _ _ _ => trivial
  refine Housed.append ?_ (housed_of_plain ho)
  exact Leaves.housed ⟨depth, List.mem_singleton_self _⟩ ⟨(nomatch ·), trivial⟩ work

theorem elaborate_housed (node : NodeId) :
    wp (elaborate job node) (fun work _ => work.Housed) (fun _ _ => True) m := by
  by_cases hq : changesFrame (job.program.tree.kind node) = false
  · exact wp_mono (elaborate_quiet node hq m) (fun _ _ h => housed_of_plain h.2) fun _ _ _ => trivial
  have yields (mode : ModeId) (d : Nat) : ∀ t ∈ [Task.yields mode d], t.plain := by simp [Task.plain]
  cases hk : job.program.tree.kind node with
  | closed | conditional =>
    simp only [elaborate, hk, wp_bind, wp_depth]
    simpa only [wp_bind] using enclosed_housed _ _ _ (yields _ _)
  | integerCase | conformityCase =>
    simp only [elaborate, hk, wp_bind, wp_depth]
    refine wp_mono (alternatives_still (by simp [Program.chainOf, hk])) (fun units m' _ => ?_)
      fun _ _ h => h.elim
    simpa only [wp_bind] using enclosed_housed _ _ _ (yields _ _)
  | jump l =>
    simp only [elaborate, hk, wp_bind, wp_depth]
    exact wp_mono (jump_still l) (fun _ _ h => h.elim) fun _ _ _ => trivial
  | _ => simp [hk, changesFrame] at hq

/-- Only what is done in a frame already puts more of the kind on the agenda without the task that
closes a frame. -/
theorem exec_housed (h : t.housed = false) :
    wp (t.exec job) (fun work _ => work.Housed) (fun _ _ => True) m := by
  have quiet {x : Exec Agenda} (hq : Quiet job x) (m : Machine) :
      wp x (fun work _ => work.Housed) (fun _ _ => True) m :=
    wp_mono (hq m) (fun _ _ h => housed_of_plain h.2) fun _ _ _ => trivial
  have called (m : Machine) (callee : Value) (args : List Value) (site : NodeId) :
      wp (callValue job callee args site) (fun work _ => work.Housed) (fun _ _ => True) m := by
    unfold callValue
    split
    · exact quiet (callStandard_quiet _ _) m
    · simp only [callRoutine, wp_bind, wp_get, wp_ite, wp_fail]
      refine ⟨fun _ => trivial, fun _ => ?_⟩
      split <;> simp [Housed, Task.housed]
    · trivial
    · trivial
    · trivial
  by_cases hq : t.quiet
  · exact quiet (exec_quiet hq) m
  by_cases hc : t.calls
  · exact wp_calls hc (fun _ _ _ => trivial) fun callee args site S _ => called _ callee args site
  cases t with
  | elaborate node => exact elaborate_housed node
  | conform units outPart mode =>
    simp only [Task.exec, conform, wp_bind, wp_pop]
    refine ⟨fun S v _ => ?_, fun _ => trivial⟩
    split
    · rw [wp_bind, wp_lift]
      refine ⟨fun found _ => ?_, fun _ _ => trivial⟩
      split
      · rw [wp_bind]
        refine wp_mono (Rote.enter job _ _) (fun d m' _ => ?_) fun _ _ _ => trivial
        refine Housed.append (housed_of_plain fun t ht => ?_) (by simp [Housed, Task.housed])
        obtain ⟨slot, -, rfl⟩ := List.mem_map.mp ht
        rfl
      · rw [wp_ite, wp_bind, wp_fail]
        exact ⟨fun _ => trivial, fun _ => quiet (orUndefined_quiet mode outPart) _⟩
    · trivial
    · trivial
  | enterLoop i =>
    simp only [Task.exec, enterLoop, wp_bind]
    exact wp_mono (Rote.enter job _ _) (fun _ _ _ => by simp [Housed, Task.housed])
      fun _ _ _ => trivial
  | enterBody i =>
    simp only [Task.exec, enterBody, wp_bind]
    exact wp_mono (Rote.enter job _ _) (fun _ _ _ => by simp [Housed, Leaves, Task.housed])
      fun _ _ _ => trivial
  | call | operate => exact absurd rfl hc
  | coerce kind node operand baseline =>
    have hk : kind ≠ .deprocedure := fun hk => hc (hk ▸ rfl)
    exact quiet (coerce_quiet kind node operand baseline hk) m
  | leave | endCall => trivial
  | enterRoutine scope environ args body =>
    simp only [Task.exec, enterRoutine, wp_bind, wp_enterAt, wp_modify, wp_pure]
    exact ⟨fun _ _ => by simp [Housed, Task.housed], fun _ _ => trivial⟩
  | clause | labelled | iterate | afterWhile | afterUntil | advance => cases h
  | _ => exact absurd rfl hq

end Exec

theorem Does.housed (h : A.Housed) (hs : Does job (A, m) (A', m')) : A'.Housed := by
  cases hs with
  | @done t work rest _ _ he =>
    cases ht : t.housed with
    | true => exact (h.1 ht).housed h.2 work
    | false => exact (Exec.wp_ok (Exec.exec_housed ht) he).append h.2
  | resumed he hu =>
    obtain ⟨j, before, c, after, work, rfl, rfl, -, -, -, rfl, -⟩ := unwind_resumed hu
    have rest := h.2.of_append (A := before)
    exact (rest.1 rfl).housed rest.2 work

theorem Outline.length_passAll_le (o : Outline) (A : Agenda) :
    (o.passAll A).frames.length ≤ o.frames.length := by
  induction A generalizing o with
  | nil => exact Nat.le_refl _
  | cons t A ih => exact Nat.le_trans (ih (o.pass t)) (o.length_pass_le t)

/-- Where a frame is closed later, there are more frames than in the end. -/
theorem Agenda.Leaves.length_lt {o : Outline} (h : A.Leaves) (ha : Along Admits o A) :
    (o.passAll A).frames.length < o.frames.length := by
  obtain ⟨depth, hd⟩ := h
  obtain ⟨B, C, rfl⟩ := List.append_of_mem hd
  obtain ⟨-, ⟨hlen, -⟩, -⟩ := Outline.along_append.mp ha
  rw [Outline.passAll_append, Outline.passAll_cons]
  have last := ((o.passAll B).pass (.leave depth)).length_passAll_le C
  have closed : ((o.passAll B).pass (.leave depth)).frames.length ≤ depth := by
    simp [Outline.pass]
  have first := o.length_passAll_le B
  omega

/-- A state of the evaluation that was begun in `n`. -/
structure Inside (job : Job) (n : Machine) (A : Agenda) (m : Machine) : Prop where
  sound : n.outline.Sound job n.frames.nextSerial
  consistent : Consistent job A m
  outline : m.outline.passAll A = n.outline
  outlast : Outlast n.frames.nextSerial n.frames.hollow m.frames.hollow
  housed : A.Housed

theorem Consistent.inside (h : Consistent job [.unit u] n) (hr : Runs job ([.unit u], n) (A, m)) :
    Inside job n A m := by
  obtain ⟨hc, hp, -⟩ := h.runs hr
  refine ⟨h.sound, hc, hp, h.outlast_runs hr, ?_⟩
  have kept {x y : Agenda × Machine} (hr : Runs job x y) (hx : x.1.Housed) : y.1.Housed := by
    induction hr with
    | refl => exact hx
    | tail _ hs ih => exact hs.housed ih
  exact kept hr ⟨(nomatch ·), trivial⟩

namespace Inside

theorem serial (h : Inside job n A m) {i : Nat} {f : Frame} (hf : m.outline.frames[i]? = some f)
    (hi : n.outline.frames.length ≤ i) : n.frames.nextSerial ≤ f.serial := by
  by_contra hlt
  obtain ⟨g, hg, -⟩ := (h.outlast i f hf (Nat.not_le.mp hlt)).symm.exists_key (Nat.lt_succ_self i) hf
  have := (List.getElem?_eq_some_iff.mp hg).1
  exact absurd hi (Nat.not_le.mpr this)

/-- What is done in a frame of its own is done in one that the evaluation opened. -/
theorem length_lt (h : Inside job n (before ++ t :: after) m) (ht : t.housed) :
    n.outline.frames.length < ((m.outline.passAll before).pass t).frames.length := by
  have along := (Outline.along_append.mp h.consistent.along).2.2
  have := (h.housed.leaves ht).length_lt along
  rwa [← Outline.passAll_cons, ← Outline.passAll_append, h.outline] at this

theorem clause {node : NodeId} {enquiry : Bool} (h : Inside job n (.clause node enquiry :: A) m)
    {i : Nat} {f : Frame} (hi : m.frames.top = .ok i) (hf : m.frames.frames[i]? = some f) :
    n.frames.nextSerial ≤ f.serial := by
  change n.frames.nextSerial ≤ f.hollow.serial
  refine h.serial (Machine.outline_frame hf) ?_
  have lt : n.outline.frames.length < m.outline.frames.length := @length_lt job [] A n m _ h rfl
  have size : m.outline.frames.length = m.frames.frames.size := m.frames.hollow_length
  unfold FrameStack.top at hi
  split at hi <;> cases hi
  omega

theorem activation {c : LabelledClause} (h : Inside job n A m) (hc : .labelled c ∈ A) :
    n.frames.nextSerial ≤ c.activation := by
  obtain ⟨before, after, rfl⟩ := List.append_of_mem hc
  have along := h.consistent.along
  obtain ⟨-, ⟨-, hlen, -⟩, -⟩ := Outline.along_append.mp along
  obtain ⟨f, hf, hs, -⟩ := Outline.frame_of_labelled along
  have lt := h.length_lt rfl
  have kept : ((m.outline.passAll before).pass (.labelled c)).frames.length = c.frame + 1 := by
    rw [← hlen]
    exact List.length_modify ..
  rw [← hs]
  exact h.serial hf (by omega)

/-- A jump out of the evaluation is one to a clause in an older frame. -/
theorem jump (h : Inside job n (t :: A) m) {j : Jump} {m₁ : Machine}
    (he : t.exec job m = .error (.jump j) m₁) (hj : ∀ t ∈ A, ¬ t.takes j) :
    j.frame < n.frames.nextSerial := by
  have hc := h.consistent
  obtain ⟨node, id, f, rfl, -, -, hfind, hr, hs, -, -⟩ := Exec.exec_jump hc.sound hc.along.1 he
  obtain ⟨i, -, hf⟩ := FrameStack.leadsTo_of_findScopeFrom hfind
  have hf := Machine.outline_frame hf
  rw [← hs]
  rcases Outline.exists_labelled hc.along hf hr with ⟨before, c, after, hA, -, hact, howner, -⟩ | hlast
  · -- the clause is on the agenda, so it would take the jump
    have mem : .labelled c ∈ Task.elaborate node :: A := by
      rw [hA]
      simp
    have mem : .labelled c ∈ A := by simpa using mem
    refine absurd ⟨howner.symm, ?_⟩ (hj _ mem)
    rw [hact, ← hs]
    rfl
  · rw [h.outline] at hlast
    exact h.sound.given i f.hollow hlast

end Inside

end Algol68
