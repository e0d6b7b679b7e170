import Algol68.Proofs.Collateral.Level
import Algol68.Proofs.Frames.Outline

/-! Every task does the same on every footing, as long as it finds the values it takes above it. -/

namespace Algol68

/-- The number of values a task takes from the stack. What a coercion to `VOID` drops lies above the
depth that was noted for it. -/
def Task.taken : Task → Nat
  | .coerce .void _ _ _ => 0
  | t => t.uses

namespace Exec

variable {job : Job} {F : Footing} {k : Nat}

/-- A task that does the same on every footing: the work it puts in its place counts the values of the
footing. -/
abbrev LevelTask (job : Job) (F : Footing) (k : Nat) (x : Footing → Exec Agenda) : Prop :=
  Level job F k Footing.agenda x

namespace Level

theorem tasks (A : Agenda) : LevelTask job F k (fun G => Pure.pure (G.agenda A)) := pure A

theorem work {b : Footing → Agenda} (A : Agenda) (h : ∀ G : Footing, b G = G.agenda A) :
    LevelTask job F k (fun G => Pure.pure (b G)) := by
  simp only [h]
  exact pure A

theorem only {α : Type} {f : Footing → α → α} {x : Footing → Exec α} (h : Level job F k f x) :
    LevelTask job F k (fun G => x G >>= fun _ => Pure.pure []) :=
  h.bind fun _ => tasks []

end Level

theorem unit_level (node : NodeId) : LevelTask job F 0 (fun _ => Exec.unit node) := by
  refine (Level.count _).bind fun _ => .get (fun _ _ => rfl) fun m => ?_
  cases m.annotations.strategy node with
  | none => exact .tasks [.elaborate node, .settle node]
  | some s =>
    obtain ⟨kind, source⟩ := s
    cases kind with
    | unit =>
      refine .work [if source = node then .elaborate node else .unit source, .within node] ?_
      intro G
      by_cases h : source = node <;> simp [Footing.agenda, Footing.task, h]
    | _ => exact .tasks [.elaborate source, .within node]

/-! Clauses that choose. -/

theorem alternatives_level (node : NodeId) (items : List NodeId) :
    Steady job F k (fun _ => alternatives job node items) := by
  refine .get (fun _ _ => rfl) fun m => ?_
  cases m.annotations.chain node with
  | some chain => exact .pure _
  | none =>
    exact (Level.annotate _).bind fun _ => .bind (Level.annotate _) fun _ => .pure _

theorem linearChain_level (serial : NodeId) (items : List NodeId) :
    Steady job F k (fun _ => linearChain job serial items) := by
  refine .get (fun _ _ => rfl) fun m => ?_
  cases m.annotations.chain serial with
  | some chain => exact (Level.count _).bind fun _ => .pure _
  | none =>
    exact (Level.annotate _).bind fun _ => (Level.count _).bind fun _ =>
      (Level.annotate _).bind fun _ => .pure _

theorem orUndefined_level (mode : ModeId) (unit : Option NodeId) :
    LevelTask job F k (fun _ => orUndefined job mode unit) := by
  cases unit with
  | some unit => exact .tasks [.unit unit]
  | none => exact (Level.pushUndefined mode).only

theorem conform_level (alternatives : List NodeId) (outPart : Option NodeId) (mode : ModeId) :
    LevelTask job F 1 (fun _ => conform job alternatives outPart mode) := by
  refine .popped fun v => ?_
  cases v with
  | union variant payload =>
    refine .bind (.lift fun e he => ?_) fun chosen => ?_
    · rw [(accepting_error he).choose_spec]
      rfl
    · cases chosen with
      | some choice =>
        refine (Level.enter choice.1.scope).bind fun before => .work (choice.1.binding.toList.map
          (Task.store · (if (job.oracle.variants choice.2).isSome then .union variant payload
            else payload)) ++ [.unit choice.1.unit, .leave before]) fun G => ?_
        cases choice.1.binding <;> rfl
      | none =>
        refine .ite ?_ (orUndefined_level mode outPart)
        exact .fails_bind rfl
  | undefined m => exact .fails rfl
  | _ => exact .mismatch

/-! Loops. -/

theorem setCounter_level (i : Iteration) : Steady job F k (fun _ => setCounter i) := by
  unfold setCounter
  split
  · exact .store _ _
  · exact .pure ()

theorem renewBody_level (i : Iteration) : Steady job F k (fun _ => renewBody job i) :=
  .ite (.pure ()) (.resetLocals _)

theorem iteration_agenda (G : Footing) (i : Iteration) :
    G.agenda (iterate.iteration i) = iterate.iteration i := by
  unfold iterate.iteration
  split <;> rfl

theorem iterate_level (i : Iteration) : LevelTask job F 0 (fun _ => iterate job i) := by
  refine .ite ((setCounter_level i).bind fun _ => (renewBody_level i).bind fun _ => ?_) (.tasks [])
  split
  · next enquiry _ => exact .tasks [.clause enquiry true, .afterWhile { i with first := false }]
  · exact .work _ fun G => (iteration_agenda G _).symm

theorem afterWhile_level (i : Iteration) : LevelTask job F 1 (fun _ => afterWhile i) := by
  refine Level.popBool.bind fun v => .work (if v then iterate.iteration i else []) fun G => ?_
  split
  · exact (iteration_agenda G _).symm
  · rfl

theorem afterUntil_level (i : Iteration) : LevelTask job F 1 (fun _ => afterUntil i) := by
  refine Level.popBool.bind fun v => .work (if v then [] else [.advance i]) fun G => ?_
  split <;> rfl

theorem advance_level (i : Iteration) : LevelTask job F 0 (fun _ => advance i) := by
  refine .ite ?_ (.tasks [.iterate i])
  split
  · exact .tasks [.iterate _]
  · exact .fails rfl

/-! Calls. -/

theorem callStandard_level (args : List Value) (p : StandardProcedure) :
    LevelTask job F k (fun _ => callStandard args p) := by
  cases p with
  | print => exact .tasks [.print args]
  | newline => exact (Level.transput _).only

theorem print_level (values : List Value) : LevelTask job F k (fun _ => print job values) := by
  have emitted (u : Transput → Transput) (vs : List Value) :
      LevelTask job F k (fun _ => do transput u; return [.print vs]) :=
    (Level.transput u).bind fun _ => .tasks [.print vs]
  cases values with
  | nil => exact .tasks []
  | cons v rest =>
    simp only [print]
    split
    · exact .tasks [.print _]
    · exact .tasks [.print _]
    · exact .tasks [.print _]
    · exact (Level.read _).bind fun _ => .tasks [.print _]
    · exact emitted _ _
    · exact .tasks [.print _]
    · exact .mismatch
    · exact .fails rfl
    all_goals exact emitted _ _

theorem callRoutine_level (text : NodeId) (environ : FrameHandle) (args : List Value)
    (site : NodeId) : LevelTask job F k (fun _ => callRoutine job text environ args site) := by
  refine .get (fun G m => by simp only [G.machine_frames, G.frames_isLive]) fun m => ?_
  refine .ite (.fails_bind rfl) ?_
  split
  · exact (Level.count _).bind fun _ => .bind (.modify fun _ _ => rfl) fun _ =>
      .tasks [.enterRoutine _ _ _ _, .endCall]
  · exact .fails rfl

theorem callValue_level (callee : Value) (args : List Value) (site : NodeId) :
    LevelTask job F k (fun _ => callValue job callee args site) := by
  unfold callValue
  split
  · exact callStandard_level _ _
  · exact callRoutine_level _ _ _ _
  · exact .fails rfl
  · exact .fails rfl
  · exact .mismatch

theorem enterRoutine_level (scope : ScopeId) (environ : Nat) (args : List Value) (body : NodeId) :
    LevelTask job F k (fun _ => enterRoutine job scope environ args body) := by
  refine (Level.enterAt scope environ).bind fun before => ?_
  refine .bind (.modify fun G m => ?_) fun _ => .tasks [.unit body, .leave before]
  have := G.frames_modify_locals m.frames before fun locals =>
    locals.mapIdx fun k v => args.getD k v
  exact congrArg (fun s => { G.machine m with frames := s }) this.symm

theorem arguments_level (args : List NodeId) (site : NodeId) :
    LevelTask job F 1 (fun _ => arguments args site) :=
  .popped fun callee => .work (args.map .unit ++ [.call callee args.length site]) fun G => by
    rw [G.agenda_append, G.agenda_units]
    rfl

/-! Gathering integers. -/

theorem conclude_level (found : List (Option Int64)) (purpose : Purpose) :
    LevelTask job F k (fun _ => conclude job found purpose) := by
  cases purpose with
  | loop parts => exact .tasks [.enterLoop _]
  | generate target =>
    exact (Level.ordinary (Value.initial_ordinary _ _ _ _)).bind fun contents =>
      (Level.allocate contents).bind fun name => (Level.push _).only
  | slice base trimmers =>
    refine .get (fun _ _ => rfl) fun m => ?_
    simp only
    split
    · exact (Level.push _).only
    · next e he =>
      have clean := Cause.ofStack_of_ordinary ((Value.slice_ordinary _ _ _).cause he)
      exact .throw _ fun G => (Level.signal_of_clean (e := e.withNote "while slicing") clean G).symm
  | diagonal operand => exact .tasks [.unit operand, .diagonal _]
  | matrix operand column => exact .tasks [.unit operand, .matrix _ _]

theorem gather_level (purpose : Purpose) (found : List (Option Int64))
    (wanted : List (Option NodeId)) :
    LevelTask job F k (fun _ => gather job purpose found wanted) := by
  induction wanted generalizing found with
  | nil => exact conclude_level found purpose
  | cons unit wanted ih =>
    cases unit with
    | none => exact ih _
    | some unit => exact .tasks [.unit unit, .take _]

/-! Operations on the values at the top of the stack. -/

theorem declare_level (slot : Slot) (init : Option NodeId) :
    LevelTask job F 1 (fun _ => declare slot init) := by
  refine .popped fun v => (Level.ordinary v.asName_ordinary).bind fun name =>
    (Level.store slot v).bind fun _ => ?_
  cases init with
  | none => exact .tasks []
  | some unit => exact .tasks [.unit unit, .initialise name]

theorem assignation_level : Steady job F 2 (fun _ => assignation job) :=
  .popped fun v => .popped fun destination => (Level.ordinary destination.asName_ordinary).bind
    fun name => (Level.assign name v).bind fun _ => .push destination

theorem identity_level (positive : Bool) : Steady job F 2 (fun _ => identity job positive) :=
  .popped fun right => .popped fun left => (Level.ordinary (sameName_ordinary left right)).bind
    fun _ => .push _

theorem dyadic_level (op : StandardOperator) : Steady job F 2 (fun _ => dyadic job op) :=
  .popped fun right => .popped fun left => (Level.ordinary (op.dyadic_ordinary _ left right)).bind
    fun _ => .push _

theorem monadic_level (op : StandardOperator) : LevelTask job F 1 (fun _ => monadic job op) := by
  refine .popped fun v => ?_
  split
  · exact (Level.read _).bind fun w => (Level.push w).bind fun _ => .tasks [.monadic _]
  · exact (Level.read _).bind fun w => (Level.push w).bind fun _ => .tasks [.monadic _]
  · exact (Level.ordinary (op.monadic_ordinary _)).bind fun w => (Level.push w).only

theorem coerce_level (kind : CoercionKind) (node operand : NodeId) (baseline : Nat) :
    LevelTask job F (Task.coerce kind node operand baseline).taken
      (fun G => coerce job kind node operand (baseline + G.height)) := by
  cases kind with
  | void => exact (Level.cut baseline).only
  | deprocedure => exact .popped fun v => callValue_level v [] node
  | dereference =>
    exact .popped fun v => (Level.ordinary v.asName_ordinary).bind fun n =>
      (Level.read n).bind fun w => (Level.push w).only
  | unite =>
    refine .popped fun v => ?_
    split <;> exact (Level.push _).only
  | widen =>
    refine .popped fun v => ?_
    split
    · exact (Level.push _).only
    · exact (Level.push _).only
    · exact .mismatch_bind
  | row => exact .popped fun v => (Level.push _).only

theorem shortCircuit_level (right : NodeId) (conjunction : Bool) :
    LevelTask job F 1 (fun _ => shortCircuit job right conjunction) :=
  Level.popBool.bind fun _ => .ite (.tasks [.unit right]) (Level.push _).only

theorem onRow_level {c : Row Value → Checked (Row Value)} (h : ∀ r, Ordinary (c r)) :
    LevelTask job F 1 (fun _ => do push job (.row (← lift (c (← popRow)))); return []) :=
  Level.popRow.bind fun r => (Level.ordinary (h r)).bind fun _ => (Level.push _).only

theorem checked_level (size expected : Nat) : Steady job F k (fun G =>
    if size + G.height ≠ expected + G.height then
      fail (.stackImbalance (expected + G.height) (size + G.height))
    else pure ()) := by
  by_cases h : size = expected
  · simp only [h, ne_eq, not_true, if_false]
    exact .pure ()
  · have other (G : Footing) : ¬ size + G.height = expected + G.height := by omega
    simp only [other, ne_eq, not_false_iff, if_true]
    exact .throw (.fault (.of (.stackImbalance expected size))) fun G => rfl

theorem yields_level (mode : ModeId) (baseline : Nat) :
    Steady job F k (fun G => yields mode (baseline + G.height)) := by
  refine Level.depth.bind fun size => ?_
  by_cases h : mode = .void
  · simp only [h, if_true]
    exact checked_level size baseline
  · simp only [h, if_false, Nat.add_right_comm baseline]
    exact checked_level size (baseline + 1)

theorem aggregate_level (mode : ModeId) (baseline : Nat) :
    Steady job F 0 (fun G => aggregate job mode (baseline + G.height)) := by
  refine .ite (.cut baseline) fun m _ => Level.depthAt ?_
  simp only [Nat.add_lt_add_iff_right, Nat.add_sub_add_right]
  by_cases h : m.stack.size < baseline
  · simp only [h, if_true]
    have missing : Steady job F 0 (fun _ => (fail .stackUnderflow : Exec Unit)) :=
      .throw (.fault (.of .stackUnderflow)) fun _ => rfl
    exact missing m (Nat.zero_le _)
  · simp only [h, if_false]
    refine (Level.popMany (m.stack.size - baseline)).bind (fun values => ?_) m (Nat.sub_le ..)
    exact (Level.ordinary (Value.display_ordinary _ _ _)).bind fun v => .push v

/-! Clauses and jumps. -/

/-- Word of a clause is left on a frame of the evaluation, so it counts the values of the footing. -/
theorem announce_level (serial : NodeId) (items : List NodeId) (baseline : Nat) {m : Machine}
    (h : ∀ i f, m.frames.top = .ok i → m.frames.frames[i]? = some f → F.next ≤ f.serial) :
    LevelAt job F Footing.clause (fun G => announce serial items (baseline + G.height)) m := by
  cases ht : m.frames.top with
  | error e =>
    refine .inr ⟨.error (.fault e) m, fun G _ => eq_error_of_wp ?_⟩
    have clean := Level.signal_of_clean (Cause.ofStack_of_local (FrameStack.top_error ht)) G
    simp [announce, ht, clean]
  | ok i =>
    cases hf : m.frames.frames[i]? with
    | none =>
      have he : m.frames.handle i = fault (.missingFrame 0) := by simp [FrameStack.handle, hf]
      refine .inr ⟨.error (.fault (.of (.missingFrame 0))) m, fun G _ => eq_error_of_wp ?_⟩
      simp [announce, ht, he, fault, Footing.signal, Fault.above, Fault.of, Cause.above]
    | some f =>
      have hh : m.frames.handle i = .ok ⟨i, f.serial⟩ := by simp [FrameStack.handle, hf]
      refine .inr ⟨.ok ⟨serial, items, i, f.serial, baseline⟩ { m with
        frames := m.frames.modify i (Frame.announce ⟨serial, baseline⟩) }, fun G hG => ?_⟩
      have announced : G.frames (m.frames.modify i (Frame.announce ⟨serial, baseline⟩)) =
          (G.frames m.frames).modify i (Frame.announce ⟨serial, baseline + G.height⟩) := by
        refine G.frames_modify m.frames i fun g hg => ?_
        cases hf.symm.trans hg
        have own : G.next ≤ f.serial := hG.next ▸ h i f ht hf
        simp [Footing.frame, Frame.announce, own]
      apply eq_ok_of_wp
      simp [announce, ht, hh, Footing.clause, Footing.machine, announced]
      rfl

theorem clause_level (node : NodeId) (enquiry : Bool) {m : Machine}
    (h : ∀ i f, m.frames.top = .ok i → m.frames.frames[i]? = some f → F.next ≤ f.serial) :
    LevelAt job F Footing.agenda (fun _ => clause job node enquiry) m := by
  simp only [clause]
  split
  · next scope range hk =>
    refine Level.depthAt ?_
    let items := job.program.tree.list range
    let ending (baseline : Nat) : Agenda :=
      if !enquiry && job.program.tree.mode node = .void then [.cut baseline] else []
    have ends (G : Footing) : ending (m.stack.size + G.height) = G.agenda (ending m.stack.size) := by
      simp only [ending]
      split <;> rfl
    split
    · refine (announce_level node items m.stack.size h).bind fun c m' => ?_
      refine Level.work (k := 0) ((job.program.tree.walk none items).steps.map (·.task m.stack.size) ++
        .labelled c :: ending m.stack.size) (fun G => ?_) m' (Nat.zero_le _)
      have after : G.agenda (.labelled c :: ending m.stack.size) =
          .labelled (G.clause c) :: ending (m.stack.size + G.height) :=
        congrArg (Task.labelled (G.clause c) :: ·) (ends G).symm
      rw [G.agenda_append, G.agenda_steps, after]
    · refine (linearChain_level (k := 0) node items m (Nat.zero_le _)).bind fun chain m' => ?_
      refine Level.work (k := 0) (chain.map (·.task m.stack.size) ++ ending m.stack.size)
        (fun G => ?_) m' (Nat.zero_le _)
      rw [G.agenda_append, G.agenda_steps, ← ends]
  · exact Level.tasks (k := 0) [.unit node] m (Nat.zero_le _)

theorem retract_level (c : LabelledClause) : Steady job F k (fun G => retract (G.clause c)) := by
  refine .modify fun G m => ?_
  have vacated := G.frames_modify m.frames c.frame (g := Frame.vacate) (h := Frame.vacate) fun f _ => by
    unfold Footing.frame Frame.vacate
    split <;> rfl
  exact congrArg (fun s => { G.machine m with frames := s }) vacated.symm

/-- A jump counts the values of the footing if the clause it leaves for was entered above it. -/
theorem jump_level (id : LabelId) : LevelTask job F 0 (fun _ => elaborate.jump job id) := by
  refine .seen fun m _ => ?_
  simp only [Footing.machine_frames, Footing.frames_findScope]
  have dangling : LevelTask job F 0 (fun _ =>
      fail (.danglingJump (job.program.interner.lookup (job.program.labels.get id).name))) := .fails rfl
  cases m.frames.findScope (job.program.labels.get id).scope with
  | none => exact dangling m (Nat.zero_le _)
  | some f =>
    cases hr : f.resumption with
    | none =>
      have vacant (G : Footing) : G.frame f = f := G.frame_of_vacant hr
      obtain ⟨scope, level, link, serial, locals, r⟩ := f
      cases hr
      simp only [Option.map_some, vacant]
      exact dangling m (Nat.zero_le _)
    | some r =>
      have noted (G : Footing) : G.frame f = f.announce
          ⟨r.owner, if G.next ≤ f.serial then r.baseline + G.height else r.baseline⟩ := by
        unfold Footing.frame Frame.announce
        split
        · rw [hr]
          rfl
        · rw [← hr]
      simp only [Option.map_some, noted, Frame.announce]
      by_cases howner : (job.program.labels.get id).owner = some r.owner
      · simp only [howner, if_true]
        refine .inr ⟨.error (.jump ⟨r.owner, (job.program.labels.get id).target, f.serial, r.baseline⟩)
          m, fun G _ => congrArg (EStateM.Result.error · (G.machine m)) ?_⟩
        simp only [Footing.signal, Footing.jump]
        split <;> rfl
      · simp only [howner, if_false]
        exact dangling m (Nat.zero_le _)

/-! Evaluating a node by its kind. -/

theorem enclosed_level (scope : ScopeId) {work : Footing → Agenda} (A : Agenda)
    (h : ∀ G, work G = G.agenda A) : LevelTask job F k (fun G => enclosed job scope (work G)) :=
  (Level.enter scope).bind fun before => .work (A ++ [.leave before]) fun G => by
    rw [G.agenda_append, h]
    rfl

/-- Work that ends with a look at what was left. -/
theorem yielding_level {x : Footing → Exec Agenda} (hx : LevelTask job F k x) (mode : ModeId)
    (baseline : Nat) :
    LevelTask job F k (fun G => do return (← x G) ++ [.yields mode (baseline + G.height)]) :=
  hx.bind fun A => .work (A ++ [.yields mode baseline]) fun G => by
    rw [G.agenda_append]
    rfl

theorem elaborate_level (node : NodeId) : LevelTask job F 0 (fun _ => elaborate job node) := by
  refine Level.depth.bind fun baseline => ?_
  cases hk : job.program.tree.kind node with
  | closed scope serial =>
    exact yielding_level (enclosed_level scope [.clause serial false] fun _ => rfl) _ _
  | conditional scope enquiry thenPart elsePart =>
    exact yielding_level (enclosed_level scope
      [.clause enquiry true, .branch thenPart elsePart _] fun _ => rfl) _ _
  | integerCase scope enquiry items outPart =>
    exact (alternatives_level node _).bind fun units => yielding_level (enclosed_level scope
      [.clause enquiry true, .choose units outPart _] fun _ => rfl) _ _
  | conformityCase scope enquiry items outPart =>
    exact (alternatives_level node _).bind fun units => yielding_level (enclosed_level scope
      [.clause enquiry true, .conform units outPart _] fun _ => rfl) _ _
  | loop id => exact yielding_level (gather_level (.loop _) [] _) _ _
  | collateral units =>
    refine .work ((job.program.tree.list units).map .unit ++
      [.aggregate (job.program.tree.mode node) baseline,
        .yields (job.program.tree.mode node) baseline]) fun G => ?_
    rw [G.agenda_append, G.agenda_units]
    rfl
  | parallel units =>
    refine .work (((job.program.tree.list units).flatMap fun u => [.unit u, .cut baseline]) ++
      [.yields (job.program.tree.mode node) baseline]) fun G => ?_
    rw [G.agenda_append]
    simp [Footing.agenda, Footing.task, List.map_flatMap]
  | identityDeclaration slot value => exact .tasks [.unit value, .bind slot]
  | variableDeclaration slot generator init => exact .tasks [.unit generator, .declare slot init]
  | modeDeclaration => exact .tasks []
  | literal l => exact (Level.push _).only
  | identifier slot => exact (Level.load slot).bind fun v => (Level.push v).only
  | standard p => exact (Level.push _).only
  | formatText tag => exact (Level.push _).only
  | nihil => exact (Level.push _).only
  | skip => exact (Level.pushUndefined _).only
  | routineText =>
    refine .get (fun G m => ?_) fun m => (Level.ofLocal fun _ => FrameStack.environ_error).bind
      fun environ => (Level.push _).only
    simp only [G.machine_frames, G.frames_resolve, G.frames_handle]
  | cast unit => exact .tasks [.unit unit]
  | call primary args => exact .tasks [.unit primary, .arguments _ node]
  | slice primary indexers => exact .tasks [.unit primary, .indexers _]
  | generator heap bounds => exact gather_level (.generate _) [] _
  | selection field secondary => exact .tasks [.unit secondary, .select field]
  | formula op left right =>
    exact .work [.unit left, .unit right, applied op .dyadic 2 node] fun G => by cases op <;> rfl
  | monadic op operand =>
    exact .work [.unit operand, applied op .monadic 1 node] fun G => by cases op <;> rfl
  | identityRelation positive left right => exact .tasks [.unit left, .unit right, .identity positive]
  | andFunction left right => exact .tasks [.unit left, .shortCircuit right true]
  | orFunction left right => exact .tasks [.unit left, .shortCircuit right false]
  | assignation destination source => exact .tasks [.unit destination, .unit source, .assign]
  | coercion kind operand => exact .tasks [.unit operand, .coerce kind node operand baseline]
  | diagonal offset operand => exact gather_level (.diagonal operand) [] _
  | transpose operand => exact .tasks [.unit operand, .transpose]
  | rowFunction offset operand => exact gather_level (.matrix operand false) [] _
  | columnFunction offset operand => exact gather_level (.matrix operand true) [] _
  | jump label => exact jump_level label
  | assertion condition => exact .tasks [.unit condition, .assert]
  | _ => exact .fails rfl

/-- A task finds the values it takes above the footing, and a clause is entered in a frame of the
evaluation. -/
structure Finds (F : Footing) (t : Task) (m : Machine) : Prop where
  taken : t.taken ≤ m.stack.size
  frame : ∀ node enquiry, t = .clause node enquiry → ∀ i f, m.frames.top = .ok i →
    m.frames.frames[i]? = some f → F.next ≤ f.serial

theorem exec_level {t : Task} {m : Machine} (h : Finds F t m) :
    LevelAt job F Footing.agenda (fun G => (G.task t).exec job) m := by
  have taken := h.taken
  cases t with
  | clause node enquiry => exact clause_level node enquiry (h.frame node enquiry rfl)
  | unit node => exact unit_level node m taken
  | elaborate node => exact elaborate_level node m taken
  | settle node => exact Level.only (.get (fun _ _ => rfl) fun _ => .modify fun _ _ => rfl) m taken
  | within node => exact Level.tasks [] m taken
  | yields mode baseline => exact (yields_level mode baseline).only m taken
  | cut baseline => exact (Level.cut baseline).only m taken
  | leave depth => exact (Level.leave depth).only m taken
  | labelled c => exact (retract_level c).only m taken
  | branch thenPart elsePart mode =>
    exact Level.popBool.bind (fun b => .ite (.tasks [.unit thenPart])
      (orUndefined_level mode elsePart)) m taken
  | choose alternatives outPart mode =>
    exact Level.popInt.bind (fun n => orUndefined_level mode _) m taken
  | conform alternatives outPart mode => exact conform_level alternatives outPart mode m taken
  | store slot v => exact (Level.store slot v).only m taken
  | bind slot => exact Level.popped (fun v => (Level.store slot v).only) m taken
  | declare slot init => exact declare_level slot init m taken
  | initialise name => exact Level.popped (fun v => (Level.assign name v).only) m taken
  | assign => exact assignation_level.only m taken
  | take g => exact Level.popInt.bind (fun n => gather_level _ _ _) m taken
  | enterLoop i =>
    exact (Level.enter i.parts.scope).bind (fun d => .tasks [.enterBody i, .leave d]) m taken
  | enterBody i =>
    exact (Level.enter i.parts.bodyScope).bind
      (fun d => .tasks [.iterate { i with body := d }, .leave d]) m taken
  | iterate i => exact iterate_level i m taken
  | afterWhile i => exact afterWhile_level i m taken
  | afterUntil i => exact afterUntil_level i m taken
  | advance i => exact advance_level i m taken
  | arguments args site => exact arguments_level args site m taken
  | call callee count site =>
    exact (Level.popMany count).bind (fun args => callValue_level callee args site) m taken
  | operate slot count site =>
    exact (Level.popMany count).bind (fun operands => (Level.load slot).bind fun callee =>
      callValue_level callee operands site) m taken
  | enterRoutine scope environ args body => exact enterRoutine_level scope environ args body m taken
  | endCall => exact Level.only (.modify fun _ _ => rfl) m taken
  | print values => exact print_level values m taken
  | dyadic op => exact (dyadic_level op).only m taken
  | monadic op => exact monadic_level op m taken
  | indexers nodes => exact Level.popped (fun base => gather_level _ _ _) m taken
  | select field =>
    exact Level.popped (fun v => (Level.ordinary (Value.field_ordinary _ _)).bind fun w =>
      (Level.push w).only) m taken
  | identity positive => exact (identity_level positive).only m taken
  | coerce kind node operand baseline => exact coerce_level kind node operand baseline m taken
  | shortCircuit right conjunction => exact shortCircuit_level right conjunction m taken
  | assert => exact Level.popBool.bind (fun b => .ite (.tasks []) (.fails rfl)) m taken
  | diagonal offset => exact onRow_level (fun r => r.diagonal_ordinary offset) m taken
  | matrix index column => exact onRow_level (fun r => r.asMatrix_ordinary index column) m taken
  | transpose => exact onRow_level (fun r => r.transpose_ordinary) m taken
  | aggregate mode baseline => exact (aggregate_level mode baseline).only m taken

end Exec

end Algol68
