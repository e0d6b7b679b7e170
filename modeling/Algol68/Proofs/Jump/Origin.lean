import Algol68.Proofs.Frames.Run

/-! Where jumps and running labelled clauses come from. Only the evaluation of a jump raises one, and
only entering a clause puts its end on the agenda. -/

namespace Algol68

open Outline (Along Admits)

variable {job : Job} {m : Machine}

namespace Exec

/-- No clause is begun, and whatever ends the task early is a fault. -/
def Calm (x : Exec Agenda) : Prop :=
  ∀ m, wp x (fun work _ => ∀ c, .labelled c ∉ work) (fun s _ => ∃ f, s = .fault f) m

theorem Quiet.calm {x : Exec Agenda} (h : Quiet job x) : Calm x := by
  intro m
  refine wp_mono (h m) ?_ fun _ _ he => he.2
  rintro work _ ⟨-, hp⟩ c hc
  exact absurd (hp _ hc) (by simp [Task.plain])

theorem enter_calm (job : Job) (scope : ScopeId) (work : Nat → Agenda) (hw : ∀ n c, .labelled c ∉ work n) :
    Calm (do return work (← enter job scope)) := by
  intro m
  simp [enter, hw]

theorem enclosed_calm (job : Job) (scope : ScopeId) (work outer : Agenda)
    (hw : ∀ c, .labelled c ∉ work) (ho : ∀ c, .labelled c ∉ outer) :
    Calm (do return (← enclosed job scope work) ++ outer) := by
  have := enter_calm job scope (fun n => work ++ [.leave n] ++ outer)
    (by simp [hw, ho])
  intro m
  simpa [enclosed] using this m

theorem elaborate_calm (node : NodeId) (h : ∀ id, job.program.tree.kind node ≠ .jump id) :
    Calm (elaborate job node) := by
  by_cases hq : changesFrame (job.program.tree.kind node) = false
  · exact (elaborate_quiet node hq).calm
  intro m
  cases hk : job.program.tree.kind node with
  | closed scope serial =>
    simp only [elaborate, hk, wp_bind, wp_depth]
    have := enclosed_calm job scope [.clause serial false]
      [.yields (job.program.tree.mode node) m.stack.size] (by simp) (by simp) m
    simpa only [wp_bind] using this
  | conditional scope enquiry thenPart elsePart =>
    simp only [elaborate, hk, wp_bind, wp_depth]
    have := enclosed_calm job scope
      [.clause enquiry true, .branch thenPart elsePart (job.program.tree.mode node)]
      [.yields (job.program.tree.mode node) m.stack.size] (by simp) (by simp) m
    simpa only [wp_bind] using this
  | integerCase scope enquiry items outPart | conformityCase scope enquiry items outPart =>
    rw [elaborate, wp_bind, wp_depth]
    simp only [hk]
    rw [wp_bind]
    refine wp_mono (alternatives_still (by simp [Program.chainOf, hk])) (fun units m' _ => ?_)
      fun _ _ h => h.elim
    exact enclosed_calm job scope [_, _] [_] (by simp) (by simp) m'
  | jump id => exact absurd hk (h id)
  | _ => simp [hk, changesFrame] at hq

theorem conform_calm (units : List NodeId) (outPart : Option NodeId) (mode : ModeId) :
    Calm (conform job units outPart mode) := by
  intro m
  simp only [conform, wp_bind, wp_pop]
  refine ⟨fun S v _ => ?_, fun _ => ⟨_, rfl⟩⟩
  split
  · simp only [wp_bind, wp_lift]
    refine ⟨fun chosen _ => ?_, fun f _ => ⟨f, rfl⟩⟩
    split
    · simp [enter]
    · simp only [wp_bind, wp_ite, wp_fail]
      exact ⟨fun _ => ⟨_, rfl⟩, fun _ => (orUndefined_quiet mode outPart).calm _⟩
  · exact ⟨_, rfl⟩
  · exact ⟨_, rfl⟩

theorem callValue_calm (callee : Value) (args : List Value) (site : NodeId) :
    Calm (callValue job callee args site) := by
  unfold callValue
  split
  · exact (@callStandard_quiet job _ _).calm
  · intro m
    simp only [callRoutine, wp_bind, wp_get, wp_ite, wp_fail]
    refine ⟨fun _ => ⟨_, rfl⟩, fun _ => ?_⟩
    split <;> simp
  · exact fun m => ⟨_, rfl⟩
  · exact fun m => ⟨_, rfl⟩
  · exact fun m => ⟨_, rfl⟩

theorem iteration_calm (i : Iteration) (c : LabelledClause) :
    .labelled c ∉ iterate.iteration i := by
  unfold iterate.iteration
  split <;> simp

theorem iterate_calm (i : Iteration) : Calm (iterate job i) := by
  intro m
  simp only [iterate, setCounter, renewBody, resetLocals, wp_ite, wp_bind]
  refine ⟨fun _ => ?_, fun _ => by simp⟩
  split <;> simp <;> split <;> simp [iteration_calm]

theorem exec_calm {t : Task} (hc : ∀ node enquiry, t ≠ .clause node enquiry)
    (hj : ∀ node id, t = .elaborate node → job.program.tree.kind node ≠ .jump id) :
    Calm (t.exec job) := by
  by_cases hq : t.quiet
  · exact (exec_quiet hq).calm
  by_cases hc' : t.calls
  · intro m
    exact wp_calls hc' (fun f _ _ => ⟨f, rfl⟩) fun callee args site S _ =>
      callValue_calm callee args site _
  cases t with
  | elaborate node => exact elaborate_calm node fun id => hj node id rfl
  | clause node enquiry => exact absurd rfl (hc node enquiry)
  | conform units outPart mode => exact conform_calm units outPart mode
  | iterate i => exact iterate_calm i
  | call | operate => exact absurd rfl hc'
  | coerce kind node operand baseline =>
    have hk : kind ≠ .deprocedure := fun hk => hc' (hk ▸ rfl)
    exact (coerce_quiet kind node operand baseline hk).calm
  | afterWhile i | afterUntil i =>
    intro m
    simp only [Task.exec, afterWhile, afterUntil, popBool, wp_bind, wp_pop, wp_lift, wp_pure]
    refine ⟨fun S v _ => ⟨fun b _ => ?_, fun f _ => ⟨f, rfl⟩⟩, fun _ => ⟨_, rfl⟩⟩
    split <;> simp [iteration_calm]
  | advance i =>
    intro m
    simp only [Task.exec, advance, wp_ite, wp_pure]
    refine ⟨fun _ => ?_, fun _ => by simp⟩
    split <;> simp
  | enterLoop i | enterBody i =>
    intro m
    simp [Task.exec, enterLoop, enterBody, enter]
  | enterRoutine scope environ args body =>
    intro m
    simp [Task.exec, enterRoutine]
  | leave | endCall | labelled =>
    intro m
    simp [Task.exec, endCall, retract]
  | _ => exact absurd rfl hq

end Exec

/-- How a clause that runs on an agenda was entered in `m`: word of it was left on the innermost
frame, which was free before and will be again. -/
structure LabelledClause.EnteredIn (c : LabelledClause) (m m' : Machine) : Prop where
  baseline : c.baseline = m.stack.size
  frame : c.frame = m.frames.depth - 1
  machine : m' = m.announced ⟨c.serial, m.stack.size⟩
  admits : m'.outline.Admits (.labelled c)
  vacates : m'.outline.pass (.labelled c) = m.outline

namespace Exec

theorem clause_enters (hs : m.outline.Sound job m.frames.nextSerial) (hv : m.outline.Vacant)
    (node : NodeId) (enquiry : Bool) :
    wp (clause job node enquiry)
      (fun work m' => ∀ c, .labelled c ∈ work → c.serial = node ∧ c.EnteredIn m m' ∧
        ∃ steps ending, work = steps ++ .labelled c :: ending ∧ (∀ t ∈ steps, t.plain) ∧
          ∀ t ∈ ending, t.plain)
      (fun s _ => ∃ f, s = .fault f) m := by
  have faults (items : List NodeId) (baseline : Nat) :
      wp (announce node items baseline) (fun _ _ => True) (fun s _ => ∃ f, s = .fault f) m := by
    simp [announce]
  simp only [clause]
  split
  · next scope range hk =>
    have ending : ∀ t ∈ (if !enquiry && job.program.tree.mode node = .void then
        [Task.cut m.stack.size] else []), t.plain := by
      split <;> simp [Task.plain]
    have none_of_plain {A : Agenda} (h : ∀ t ∈ A, t.plain) (c : LabelledClause) :
        .labelled c ∉ A := fun hc => absurd (h _ hc) (by simp [Task.plain])
    simp only [wp_bind, wp_depth, wp_ite]
    refine ⟨fun _ => ?_, fun hl => ?_⟩
    · refine wp_mono (wp_and (wp_announce hs hv node _ _) (faults _ _)) ?_ fun _ _ h => h.2
      rintro c m' ⟨⟨hc, hm, -, ha, hp⟩, -⟩ c' hc'
      have same : c' = c := by
        rcases List.mem_append.mp hc' with h | h
        · exact absurd h (none_of_plain (plain_chain _ _) c')
        · rcases List.mem_cons.mp h with h | h
          · exact Task.labelled.inj h
          · exact absurd h (none_of_plain ending c')
      subst same
      have hserial : c'.serial = node := by rw [hc]
      refine ⟨hserial, ⟨by rw [hc], by rw [hc], by rw [hserial]; exact hm, ha, hp⟩, ?_⟩
      exact ⟨_, _, rfl, plain_chain _ _, ending⟩
    · refine wp_mono (linearChain_still hk hl) (fun chain m' hm c hc => ?_) fun _ _ h => h.elim
      rcases List.mem_append.mp hc with h | h
      · exact absurd h (none_of_plain (plain_chain _ _) c)
      · exact absurd h (none_of_plain ending c)
  · intro c hc
    simp at hc

/-- Only the evaluation of a jump raises one, and it does nothing else. -/
theorem exec_jump (hs : m.outline.Sound job m.frames.nextSerial) {t : Task}
    (ha : m.outline.Admits t) {j : Jump} {m' : Machine} (he : t.exec job m = .error (.jump j) m') :
    ∃ node id f, t = .elaborate node ∧ job.program.tree.kind node = .jump id ∧ m' = m ∧
      m.frames.findScope (job.program.labels.get id).scope = some f ∧
      f.resumption = some ⟨j.owner, j.baseline⟩ ∧ f.serial = j.frame ∧
      (job.program.labels.get id).owner = some j.owner ∧
      j.target = (job.program.labels.get id).target := by
  by_cases hc : ∃ node enquiry, t = .clause node enquiry
  · obtain ⟨node, enquiry, rfl⟩ := hc
    obtain ⟨f, hf⟩ := wp_error (clause_enters hs ha node enquiry) he
    cases hf
  by_cases hj : ∃ node id, t = .elaborate node ∧ job.program.tree.kind node = .jump id
  · obtain ⟨node, id, rfl, hk⟩ := hj
    have raised : wp (elaborate job node) (fun _ _ => True) (fun s m' => m' = m ∧
        ∀ j, s = .jump j → ∃ f, m.frames.findScope (job.program.labels.get id).scope = some f ∧
          f.resumption = some ⟨j.owner, j.baseline⟩ ∧ f.serial = j.frame ∧
          (job.program.labels.get id).owner = some j.owner ∧
          j.target = (job.program.labels.get id).target) m := by
      simp only [elaborate, hk, elaborate.jump, wp_bind, wp_depth, wp_get]
      split
      · next r hr => simp +contextual [hr]
      · simp
    obtain ⟨hm, h⟩ := wp_error raised he
    obtain ⟨f, h⟩ := h j rfl
    exact ⟨node, id, f, rfl, hk, hm, h⟩
  · have calm : Calm (t.exec job) := exec_calm (fun node enquiry h => hc ⟨node, enquiry, h⟩)
      fun node id h hk => hj ⟨node, id, h, hk⟩
    obtain ⟨f, hf⟩ := wp_error (calm m) he
    cases hf

end Exec

end Algol68
