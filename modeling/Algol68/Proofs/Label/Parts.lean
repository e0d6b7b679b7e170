import Algol68.Proofs.Scope.Tasks

/-! The nodes that tasks will have evaluated. The work that a task puts in its place deals with parts of
the nodes the task deals with, so what holds of the parts of each node is true of all that is
evaluated. Only the evaluation of a jump complains of a label. -/

namespace Algol68

/-- Whether a fault is about a jump whose label is not to be found. -/
def Cause.ofLabel : Cause → Bool
  | .danglingJump _ => true
  | _ => false

/-- A signal that is not a fault about a label. -/
def Signal.Anchored : Signal → Prop
  | .fault f => f.cause.ofLabel = false
  | .jump _ => True

theorem Cause.ofLabel_of_ordinary {c : Cause} (h : c.ordinary = true) : c.ofLabel = false := by
  cases c <;> simp_all [ordinary, ofLabel]

theorem Signal.OfValues.anchored {s : Signal} (h : s.OfValues) : s.Anchored := by
  obtain ⟨⟨c, span, trace, notes⟩, rfl, hc, -⟩ := h
  cases c <;> simp_all [Cause.ofValues, Cause.ordinary, Cause.ofLabel, Anchored]

theorem Cause.ofLabel_of_local {c : Cause} (h : c.ofLocal = true) : c.ofLabel = false := by
  cases c <;> simp_all [ofLocal, ofLabel]

instance : Signal.Covers Signal.Anchored :=
  ⟨fun _ h => Cause.ofLabel_of_ordinary h, rfl, fun _ => rfl⟩

/-- The nodes that are evaluated once integers are gathered. -/
def Purpose.parts : Purpose → List NodeId
  | .loop parts => parts.bodyUnits
  | .diagonal operand | .matrix operand _ => [operand]
  | .generate _ | .slice .. => []

/-- The nodes that a task will have evaluated. The body of a routine is not among them. -/
def Task.parts : Task → List NodeId
  | .unit n | .elaborate n | .clause n _ | .shortCircuit n _ => [n]
  | .labelled c => c.items
  | .branch thenPart elsePart _ => thenPart :: elsePart.toList
  | .choose alternatives outPart _ | .conform alternatives outPart _ =>
    alternatives ++ outPart.toList
  | .declare _ init => init.toList
  | .take g => g.purpose.parts ++ g.wanted.filterMap id
  | .enterLoop i | .enterBody i | .iterate i | .afterWhile i | .afterUntil i | .advance i =>
    i.parts.bodyUnits
  | .arguments nodes _ | .indexers nodes => nodes
  | _ => []

/-- Nodes of one sort are all that a task will have evaluated. -/
def Task.Only (Q : NodeId → Prop) (t : Task) : Prop := ∀ n ∈ t.parts, Q n

/-- Nodes of one sort are all that an agenda will have evaluated. -/
def Agenda.Only (Q : NodeId → Prop) (A : Agenda) : Prop := ∀ t ∈ A, t.Only Q

namespace Agenda

variable {Q : NodeId → Prop} {t : Task} {A B : Agenda}

@[simp] theorem only_nil : Only Q [] := by simp [Only]

@[simp] theorem only_cons : Only Q (t :: A) ↔ t.Only Q ∧ Only Q A := by simp [Only]

@[simp] theorem only_append : Only Q (A ++ B) ↔ Only Q A ∧ Only Q B := by
  simp [Only, or_imp, forall_and]

theorem only_units {ns : List NodeId} (h : ∀ n ∈ ns, Q n) : Only Q (ns.map .unit) := by
  intro t ht
  obtain ⟨n, hn, rfl⟩ := List.mem_map.mp ht
  simpa [Task.Only, Task.parts] using h n hn

theorem only_chain {baseline : Nat} {chain : List ChainStep} (h : ∀ n, .unit n ∈ chain → Q n) :
    Only Q (chain.map (·.task baseline)) := by
  intro t ht
  obtain ⟨step, hs, rfl⟩ := List.mem_map.mp ht
  cases step with
  | unit n => simpa [Task.Only, Task.parts, ChainStep.task] using h n hs
  | boundary => simp [Task.Only, Task.parts, ChainStep.task]

end Agenda

theorem Purpose.Leaves.only {p : Purpose} {wanted : List (Option NodeId)} {A : Agenda}
    {Q : NodeId → Prop} (h : p.Leaves wanted A) (hp : ∀ n ∈ p.parts, Q n)
    (hw : ∀ n, some n ∈ wanted → Q n) : A.Only Q := by
  cases h with
  | nothing => exact Agenda.only_nil
  | next hn hr =>
    simp only [Agenda.only_cons, Agenda.only_nil, and_true, Task.Only, Task.parts,
      List.mem_singleton, forall_eq, List.mem_append, List.mem_filterMap, id, exists_eq_right]
    exact ⟨hw _ hn, fun n h => h.elim (hp n) fun hm => hw n (hr _ hm)⟩
  | loop h | diagonal h | matrix h =>
    subst h
    simpa [Task.Only, Task.parts, Purpose.parts] using hp

/-- What holds of a node holds of its parts, but for some closed clauses, none of which can be reduced
to its only unit. -/
structure Program.Spreads (p : Program) (stops : NodeId → Prop) (Q : NodeId → Prop) : Prop where
  part : ∀ n, Q n → ¬ stops n → ∀ c ∈ p.tree.children (p.tree.kind n), Q c
  closed : ∀ n, stops n → ∃ scope serial, p.tree.kind n = .closed scope serial
  whole : ∀ n inner, stops n → ¬ p.Reduces n inner

theorem Program.Spreads.all (p : Program) : p.Spreads (fun _ => False) fun _ => True :=
  ⟨fun _ _ _ _ _ => trivial, fun _ h => h.elim, fun _ _ h => h.elim⟩

namespace Program.Spreads

variable {p : Program} {stops : NodeId → Prop} {Q : NodeId → Prop} (hQ : p.Spreads stops Q)

include hQ

theorem inlined (n : NodeId) (hn : Q n) (hi : (p.tree.kind n).inlines) (c : NodeId)
    (hc : c ∈ p.tree.children (p.tree.kind n)) : Q c := by
  refine hQ.part n hn (fun hs => ?_) c hc
  obtain ⟨scope, serial, hk⟩ := hQ.closed n hs
  rw [hk] at hi
  cases hi

theorem reduced {n inner : NodeId} (hn : Q n) (hr : p.Reduces n inner) : Q inner := by
  obtain ⟨scope, serial, range, items, hk, -, hserial, -, hflat⟩ := hr.clause
  have hs : Q serial :=
    hQ.part n hn (fun hs => hQ.whole n inner hs hr) serial (by rw [hk]; exact List.mem_singleton_self _)
  refine Tree.forall_flatten hQ.inlined (fun c hc => ?_)
    (by rw [hflat]; exact List.mem_singleton_self _)
  exact hQ.inlined serial hs (by rw [hserial]; rfl) c (by rw [hserial]; exact hc)

end Program.Spreads

namespace Exec

variable {job : Job} {Q : NodeId → Prop} {m : Machine} {α : Type}

/-- The work that is put in place of a task will have nodes of one sort evaluated, and a fault that
ends it early is not about a label. -/
abbrev Confines (Q : NodeId → Prop) (x : Exec Agenda) : Prop :=
  Gives Signal.Anchored (Agenda.Only Q) x

theorem Gives.confined {x : Exec α} (hx : Gives Signal.Anchored (fun _ => True) x) :
    Confines Q (do let _ ← x; return []) := hx.andThen fun _ => .pure Agenda.only_nil

theorem Gives.lift_local {c : Checked α} (h : ∀ f, c = .error f → f.cause.ofLocal = true) :
    Gives Signal.Anchored (fun _ => True) (Exec.lift c) := by
  intro m
  rw [wp_lift]
  exact ⟨fun _ _ => trivial, fun f hf => Cause.ofLabel_of_local (h f hf)⟩

theorem Gives.load (slot : Slot) : Gives Signal.Anchored (fun _ => True) (load slot) :=
  Gives.get.andThen fun _ => .lift_local fun _ => FrameStack.load_error

theorem Gives.store (slot : Slot) (v : Value) :
    Gives Signal.Anchored (fun _ => True) (store slot v) :=
  Gives.get.andThen fun _ => (Gives.lift_local fun _ => FrameStack.holder_error).andThen fun _ =>
    .modify _

theorem Gives.enterAt (job : Job) (scope : ScopeId) (link : Nat) :
    Gives Signal.Anchored (fun _ => True) (enterAt job scope link) := by
  intro m
  rw [wp_enterAt]
  refine ⟨fun _ _ => trivial, fun f hf => ?_⟩
  simp only [FrameStack.checkRoom] at hf
  split at hf
  · cases hf
    rfl
  · cases hf

theorem Gives.enter (job : Job) (scope : ScopeId) :
    Gives Signal.Anchored (fun _ => True) (enter job scope) :=
  Gives.get.andThen fun _ => (Gives.lift_local fun _ => FrameStack.top_error).andThen fun link =>
    .enterAt job scope link

theorem enclosed_confined (scope : ScopeId) {work : Agenda} (hw : work.Only Q) (mode : ModeId)
    (baseline : Nat) :
    Confines Q (do return (← enclosed job scope work) ++ [.yields mode baseline]) := by
  refine Gives.bind (E := Signal.Anchored) (Q := Agenda.Only Q) ?_ fun A hA => .pure ?_
  · refine (Gives.enter job scope).andThen fun before => .pure ?_
    simp [hw, Task.Only, Task.parts]
  · simp [hA, Task.Only, Task.parts]

theorem Works.confines {R : Agenda → Prop} {x : Exec Agenda} (hx : Works job R x)
    (hR : ∀ A, R A → A.Only Q) : Confines Q x :=
  fun m => wp_mono (hx m) (fun A _ h => hR A h.1) fun _ _ h => h.1.anchored

theorem gather_confined {p : Purpose} (hp : ∀ n ∈ p.parts, Q n) {wanted : List (Option NodeId)}
    (hw : ∀ n, some n ∈ wanted → Q n) (found : List (Option Int64)) :
    Confines Q (gather job p found wanted) :=
  (gather_works p found fun _ h => h).confines fun _ h => h.only hp hw

theorem orUndefined_confined (mode : ModeId) {unit : Option NodeId} (h : ∀ n ∈ unit, Q n) :
    Confines Q (orUndefined job mode unit) := by
  refine (orUndefined_works mode unit).confines ?_
  rintro _ (rfl | ⟨n, hn, rfl⟩)
  · exact Agenda.only_nil
  · simpa [Task.Only, Task.parts] using h n hn

theorem print_confined (values : List Value) : Confines Q (print job values) := by
  have printed (values : List Value) : Agenda.Only Q [.print values] := by
    simp [Task.Only, Task.parts]
  have emitted (f : Transput → Transput) (values : List Value) :
      Confines Q (do transput f; return [.print values]) :=
    (Gives.modify _).andThen fun _ => .pure (printed values)
  unfold print
  split
  · exact .pure Agenda.only_nil
  · split
    · exact .pure (printed _)
    · exact .pure (printed _)
    · exact .pure (printed _)
    · exact (Gives.read _).andThen fun _ => .pure (printed _)
    · exact emitted _ _
    · exact .pure (printed _)
    · exact .mismatch (by decide)
    · exact .fail rfl
    all_goals exact emitted _ _

theorem callValue_confined (callee : Value) (args : List Value) (site : NodeId) :
    Confines Q (callValue job callee args site) := by
  unfold callValue
  split
  · next p =>
    cases p with
    | print => exact .pure (by simp [Task.Only, Task.parts])
    | newline => exact (Gives.modify _).confined
  · next text environ =>
    intro m
    simp only [callRoutine, wp_bind, wp_get, wp_ite, wp_fail]
    refine ⟨fun _ => rfl, fun _ => ?_⟩
    split
    · simp [Task.Only, Task.parts]
    · exact rfl
  · exact .fail rfl
  · exact .fail rfl
  · exact .mismatch (by decide)

theorem iteration_only {i : Iteration} (h : ∀ n ∈ i.parts.bodyUnits, Q n) :
    Agenda.Only Q (iterate.iteration i) := by
  have doPart := h i.parts.doPart (by simp [LoopParts.bodyUnits])
  unfold iterate.iteration
  split
  · next enquiry he =>
    have := h enquiry (by simp [LoopParts.bodyUnits, he])
    simpa [Task.Only, Task.parts] using ⟨doPart, this, h⟩
  · simpa [Task.Only, Task.parts] using ⟨doPart, h⟩

theorem iterate_confined {i : Iteration} (h : ∀ n ∈ i.parts.bodyUnits, Q n) :
    Confines Q (iterate job i) := by
  refine .ite (fun _ => ?_) fun _ => .pure Agenda.only_nil
  have counted : Gives Signal.Anchored (fun _ => True) (setCounter i) := by
    unfold setCounter
    split
    · exact .store _ _
    · exact .pure trivial
  have renewed : Gives Signal.Anchored (fun _ => True) (renewBody job i) :=
    .ite (fun _ => .pure trivial) fun _ => .modify _
  refine counted.andThen fun _ => renewed.andThen fun _ => .pure ?_
  split
  · next enquiry he =>
    have := h enquiry (by simp [LoopParts.bodyUnits, he])
    simpa [Task.Only, Task.parts] using ⟨this, h⟩
  · exact iteration_only (i := { i with first := false }) h

section

variable {stops : NodeId → Prop} (hQ : job.program.Spreads stops Q)

include hQ

theorem boundUnits_confined {bounds : List NodeId} (h : ∀ b ∈ bounds, Q b) {n : NodeId}
    (hn : some n ∈ boundUnits job.program.tree bounds) : Q n := by
  obtain ⟨b, hb, hn⟩ := List.mem_flatMap.mp hn
  cases hk : job.program.tree.kind b with
  | bound lower upper =>
    simp only [hk, List.mem_cons, List.not_mem_nil, or_false] at hn
    refine hQ.part b (h b hb) (fun hs => ?_) n (by rw [hk]; simpa [Tree.children, eq_comm] using hn)
    obtain ⟨scope, serial, hc⟩ := hQ.closed b hs
    cases hk.symm.trans hc
  | _ =>
    simp only [hk, List.mem_cons, List.not_mem_nil, or_false, reduceCtorEq, false_or,
      Option.some.injEq] at hn
    rw [hn]
    exact h b hb

theorem indexerUnits_confined {nodes : List NodeId} (h : ∀ b ∈ nodes, Q b) {n : NodeId}
    (hn : some n ∈ (indexerUnits job.program.tree nodes).1) : Q n := by
  obtain ⟨b, hb, hn⟩ := List.mem_flatMap.mp hn
  cases hk : job.program.tree.kind b with
  | trimmer lower upper =>
    simp only [hk, List.mem_cons, List.not_mem_nil, or_false] at hn
    refine hQ.part b (h b hb) (fun hs => ?_) n (by rw [hk]; simpa [Tree.children, eq_comm] using hn)
    obtain ⟨scope, serial, hc⟩ := hQ.closed b hs
    cases hk.symm.trans hc
  | _ =>
    simp only [hk, List.mem_singleton, Option.some.injEq] at hn
    rw [hn]
    exact h b hb

theorem leaves_only {t : Task} {A : Agenda} (h : t.Leaves job.program.tree A) (hp : t.Only Q) :
    A.Only Q := by
  cases h with
  | nothing | monadic => simp [Task.Only, Task.parts]
  | thenPart | elsePart | right =>
    simp only [Task.Only, Task.parts] at hp
    simpa [Task.Only, Task.parts] using hp _ (by simp)
  | alternative h =>
    have := hp _ (List.mem_append.mpr (h.imp_right Option.mem_toList.mpr))
    simpa [Task.Only, Task.parts] using this
  | take h =>
    refine h.only (fun n hn => hp n (List.mem_append_left _ hn)) fun n hn => hp n ?_
    exact List.mem_append_right _ (List.mem_filterMap.mpr ⟨_, hn, rfl⟩)
  | arguments args =>
    rw [Agenda.only_append]
    exact ⟨Agenda.only_units hp, by simp [Task.Only, Task.parts]⟩
  | indexers h =>
    exact h.only (by simp [Purpose.parts]) fun _ hn => indexerUnits_confined hQ hp hn

theorem alternatives_confined (ht : m.annotations.Truthful job) {n : NodeId} (items : List NodeId)
    (hchain : job.program.chainOf n =
      some ((ChainStep.units (job.program.tree.flatten items)).map .unit))
    (hi : ∀ c ∈ items, Q c) (scope : ScopeId) {enquiry : NodeId} (he : Q enquiry)
    (choice : List NodeId → Task) (hc : ∀ units, (∀ u ∈ units, Q u) → (choice units).Only Q)
    (mode : ModeId) (baseline : Nat) :
    wp (do
      let units ← alternatives job n items
      return (← enclosed job scope [.clause enquiry true, choice units]) ++
        [.yields mode baseline])
      (fun work _ => work.Only Q) (fun s _ => s.Anchored) m := by
  rw [wp_bind]
  refine wp_mono (alternatives_still hchain) ?_ fun _ _ h => h.elim
  rintro units m' ⟨-, hunits⟩
  refine enclosed_confined scope ?_ mode baseline m'
  simp only [Agenda.only_cons, Agenda.only_nil, and_true]
  refine ⟨by simpa [Task.Only, Task.parts] using he, hc units fun u hu => ?_⟩
  rw [hunits ht] at hu
  exact Tree.forall_flatten hQ.inlined hi (ChainStep.mem_units.mp hu)

theorem elaborate_confined (ht : m.annotations.Truthful job) {n : NodeId} (hn : Q n)
    (hs : ¬ stops n) (hj : ∀ id, job.program.tree.kind n ≠ .jump id) :
    wp (elaborate job n) (fun work _ => work.Only Q) (fun s _ => s.Anchored) m := by
  have parts := hQ.part n hn hs
  have gives {x : Nat → Exec Agenda} (h : ∀ baseline, Confines Q (x baseline)) :
      wp (depth >>= x) (fun work _ => work.Only Q) (fun s _ => s.Anchored) m :=
    (Gives.depth.andThen h) m
  cases hk : job.program.tree.kind n with
  | jump id => exact absurd hk (hj id)
  | integerCase scope enquiry items outPart | conformityCase scope enquiry items outPart =>
    rw [hk] at parts
    rw [elaborate, wp_bind, wp_depth]
    simp only [hk]
    refine alternatives_confined hQ ht _ (by simp [Program.chainOf, hk])
      (fun c hc => parts c (by simp [Tree.children, hc])) scope
      (parts enquiry (by simp [Tree.children])) _ (fun units hu => ?_) _ _
    simp only [Task.Only, Task.parts, List.mem_append, Option.mem_toList]
    exact fun c hc => hc.elim (hu c) fun hc => parts c (by simp_all [Tree.children])
  | closed scope serial =>
    rw [hk] at parts
    simp only [elaborate, hk]
    refine gives fun baseline => enclosed_confined scope ?_ _ _
    simpa [Task.Only, Task.parts, Tree.children] using parts
  | conditional scope enquiry thenPart elsePart =>
    rw [hk] at parts
    simp only [elaborate, hk]
    refine gives fun baseline => enclosed_confined scope ?_ _ _
    simpa [Task.Only, Task.parts, Tree.children] using parts
  | loop id =>
    rw [hk] at parts
    simp only [elaborate, hk]
    refine gives fun baseline => Gives.bind (E := Signal.Anchored) (Q := Agenda.Only Q) ?_
      fun A hA => .pure (by simp [hA, Task.Only, Task.parts])
    refine gather_confined (fun c hc => parts c ?_) (fun c hc => parts c ?_) []
    · simp only [Purpose.parts, LoopParts.bodyUnits, List.mem_append] at hc
      simp only [Tree.children, List.mem_append]
      tauto
    · simp only [List.mem_cons, List.not_mem_nil, or_false] at hc
      simp only [Tree.children, List.mem_append, Option.mem_toList, eq_comm]
      tauto
  | collateral units =>
    rw [hk] at parts
    simp only [elaborate, hk]
    refine gives fun baseline => .pure ?_
    rw [Agenda.only_append]
    exact ⟨Agenda.only_units parts, by simp [Task.Only, Task.parts]⟩
  | parallel units =>
    rw [hk] at parts
    simp only [elaborate, hk]
    refine gives fun baseline => .pure ?_
    rw [Agenda.only_append]
    refine ⟨fun t ht => ?_, by simp [Task.Only, Task.parts]⟩
    obtain ⟨c, hc, ht⟩ := List.mem_flatMap.mp ht
    simp only [List.mem_cons, List.not_mem_nil, or_false] at ht
    rcases ht with rfl | rfl
    · simpa [Task.Only, Task.parts] using parts c hc
    · simp [Task.Only, Task.parts]
  | literal | standard | formatText | nihil =>
    simp only [elaborate, hk]
    exact gives fun baseline => (Gives.push job _).confined
  | skip =>
    simp only [elaborate, hk]
    exact gives fun baseline => (Gives.pushUndefined job _).confined
  | identifier slot =>
    simp only [elaborate, hk]
    exact gives fun baseline => (Gives.load slot).andThen fun v => (Gives.push job v).confined
  | routineText scope params body =>
    simp only [elaborate, hk]
    refine gives fun baseline => Gives.get.andThen fun m => ?_
    refine (Gives.lift_local fun f hf => ?_).andThen fun e => (Gives.push job _).confined
    exact FrameStack.environ_error hf
  | modeDeclaration =>
    simp only [elaborate, hk]
    exact gives fun baseline => .pure Agenda.only_nil
  | generator heap bounds =>
    rw [hk] at parts
    simp only [elaborate, hk]
    exact gives fun baseline => gather_confined (p := .generate _) (by simp [Purpose.parts])
      (fun c hc => boundUnits_confined hQ parts hc) []
  | diagonal offset operand | rowFunction offset operand | columnFunction offset operand =>
    rw [hk] at parts
    have offsets (c : NodeId) (hc : some c ∈ [offset]) : Q c :=
      parts c (by simp [Tree.children, ← List.mem_singleton.mp hc])
    have last : Q operand := parts operand (by simp [Tree.children])
    simp only [elaborate, hk]
    refine gives fun baseline => gather_confined ?_ offsets []
    simpa [Purpose.parts] using last
  | call primary args | slice primary indexers =>
    rw [hk] at parts
    simp only [elaborate, hk]
    refine gives fun baseline => .pure ?_
    simpa [Task.Only, Task.parts, Tree.children] using parts
  | formula op left right | monadic op operand =>
    rw [hk] at parts
    simp only [elaborate, hk]
    refine gives fun baseline => .pure ?_
    cases op <;> simpa [Task.Only, Task.parts, Tree.children, applied] using parts
  | variableDeclaration slot generator init =>
    rw [hk] at parts
    simp only [elaborate, hk]
    refine gives fun baseline => .pure ?_
    simpa [Task.Only, Task.parts, Tree.children] using parts
  | identityDeclaration | selection | cast | transpose | coercion | assertion | andFunction
  | orFunction | identityRelation | assignation =>
    rw [hk] at parts
    simp only [elaborate, hk]
    refine gives fun baseline => .pure ?_
    simpa [Task.Only, Task.parts, Tree.children] using parts
  | _ =>
    simp only [elaborate, hk]
    exact gives fun baseline => .fail rfl

theorem clause_confined (hs : m.outline.Sound job m.frames.nextSerial)
    (ht : m.annotations.Truthful job) (hv : m.outline.Vacant) {n : NodeId} (hn : Q n)
    (enquiry : Bool) :
    wp (clause job n enquiry) (fun work _ => work.Only Q) (fun s _ => s.Anchored) m := by
  simp only [clause]
  split
  · next scope range hk =>
    have items : ∀ c ∈ job.program.tree.list range, Q c :=
      fun c hc => hQ.inlined n hn (by rw [hk]; rfl) c (by rw [hk]; exact hc)
    have ending : Agenda.Only Q (if !enquiry && job.program.tree.mode n = .void then
        [Task.cut m.stack.size] else []) := by
      split <;> simp [Task.Only, Task.parts]
    simp only [wp_bind, wp_depth, wp_ite]
    refine ⟨fun _ => ?_, fun hl => ?_⟩
    · refine wp_mono (wp_announce hs hv n _ _) ?_ fun _ _ h => h.elim
      rintro c m' ⟨hc, -⟩
      rw [wp_pure, Agenda.only_append, Agenda.only_cons]
      refine ⟨Agenda.only_chain fun u hu => Tree.forall_walk hQ.inlined items hu, ?_, ending⟩
      rw [hc]
      exact items
    · refine wp_mono (linearChain_still hk hl) ?_ fun _ _ h => h.elim
      rintro chain m' ⟨-, hchain⟩
      rw [wp_pure, Agenda.only_append, hchain ht]
      exact ⟨Agenda.only_chain fun u hu => Tree.forall_flatten hQ.inlined items hu, ending⟩
  · simpa [Task.Only, Task.parts] using hn

theorem conform_confined {units : List NodeId} {outPart : Option NodeId} (hu : ∀ n ∈ units, Q n)
    (ho : ∀ n ∈ outPart, Q n) (mode : ModeId) : Confines Q (conform job units outPart mode) := by
  refine Gives.pop.andThen fun v => ?_
  split
  · next variant payload =>
    intro m
    rw [wp_bind, wp_lift]
    refine ⟨fun chosen hchosen => ?_, fun f hf => ?_⟩
    · split
      · next a specifier =>
        obtain ⟨n, hmem, id, hk, rfl⟩ := accepting_mem hchosen
        refine ((Gives.enter job _).andThen fun before => .pure ?_) m
        rw [Agenda.only_append]
        refine ⟨fun t ht => ?_, ?_⟩
        · obtain ⟨slot, -, rfl⟩ := List.mem_map.mp ht
          simp [Task.Only, Task.parts]
        · have := hQ.part n (hu n hmem) (fun hs => ?_) (job.program.tree.alternative id).unit
            (by rw [hk]; exact List.mem_singleton_self _)
          · simpa [Task.Only, Task.parts] using this
          · obtain ⟨scope, serial, hc⟩ := hQ.closed n hs
            cases hk.symm.trans hc
      · simp only [wp_bind, wp_ite, wp_fail]
        exact ⟨fun _ => rfl, fun _ => orUndefined_confined mode ho m⟩
    · obtain ⟨kind, hcause⟩ := accepting_error hf
      simp [Signal.Anchored, hcause, Cause.ofLabel]
  · exact .fail rfl
  · exact .mismatch (by decide)

theorem unit_confined (ht : m.annotations.Truthful job) {n : NodeId} (hn : Q n) :
    wp (Exec.unit n) (fun work _ => work.Only Q) (fun s _ => s.Anchored) m := by
  simp only [Exec.unit, wp_bind, wp_count, wp_get]
  split
  · simpa [Task.Only, Task.parts] using hn
  · next source hsource =>
    rcases ht.strategy n _ hsource with heq | ⟨-, hr⟩
    · have heq : source = n := heq
      subst heq
      simpa [Task.Only, Task.parts] using hn
    · have hs : Q source := hQ.reduced hn hr
      split
      · simpa [Task.Only, Task.parts] using hn
      · simpa [Task.Only, Task.parts] using hs
  · next kind source hkind hsource =>
    rcases ht.strategy n _ hsource with heq | ⟨heq, -⟩
    · have heq : source = n := heq
      subst heq
      simpa [Task.Only, Task.parts] using hn
    · exact absurd heq fun he => by simp_all

/-- A task leaves work on the parts of the nodes it deals with, unless it enters a routine, and does
not complain of a label, unless it evaluates a jump. -/
theorem exec_confined (hs : m.outline.Sound job m.frames.nextSerial)
    (ht : m.annotations.Truthful job) {t : Task} (ha : m.outline.Admits t) (hp : t.Only Q)
    (hstop : ∀ n, t = .elaborate n → ¬ stops n)
    (hjump : ∀ n id, t = .elaborate n → job.program.tree.kind n ≠ .jump id)
    (hroutine : ∀ scope environ args body, t ≠ .enterRoutine scope environ args body) :
    wp (t.exec job) (fun work _ => work.Only Q) (fun s _ => s.Anchored) m := by
  have gives {x : Exec Agenda} (h : Confines Q x) :
      wp x (fun work _ => work.Only Q) (fun s _ => s.Anchored) m := h m
  by_cases hv : t.onValues
  · exact gives ((exec_works hv).confines fun _ h => leaves_only hQ h hp)
  cases t with
  | unit n => exact unit_confined hQ ht (by simpa [Task.Only, Task.parts] using hp)
  | elaborate n =>
    exact elaborate_confined hQ ht (by simpa [Task.Only, Task.parts] using hp) (hstop n rfl)
      fun id => hjump n id rfl
  | settle | leave | labelled | endCall => exact Agenda.only_nil
  | clause n enquiry =>
    exact clause_confined hQ hs ht ha (by simpa [Task.Only, Task.parts] using hp) enquiry
  | conform alternatives outPart mode =>
    simp only [Task.Only, Task.parts, List.mem_append, Option.mem_toList] at hp
    exact gives <| conform_confined hQ (fun n hn => hp n (.inl hn)) (fun n hn => hp n (.inr hn)) mode
  | store slot v => exact gives (Gives.store slot v).confined
  | bind slot => exact gives <| Gives.pop.andThen fun v => (Gives.store slot v).confined
  | declare slot init =>
    refine gives <| Gives.pop.andThen fun v => (Gives.lift v.asName_ordinary).andThen fun name =>
      (Gives.store slot v).andThen fun _ => ?_
    cases init with
    | none => exact .pure Agenda.only_nil
    | some unit => exact .pure (by simpa [Task.Only, Task.parts] using hp)
  | enterLoop i | enterBody i =>
    refine gives <| (Gives.enter job _).andThen fun before => .pure ?_
    simpa [Task.Only, Task.parts] using hp
  | iterate i => exact gives <| iterate_confined hp
  | afterWhile i =>
    refine gives <| Gives.popBool.andThen fun b => .pure ?_
    split
    · exact iteration_only hp
    · exact Agenda.only_nil
  | afterUntil i =>
    refine gives <| Gives.popBool.andThen fun b => .pure ?_
    split
    · exact Agenda.only_nil
    · simpa [Task.Only, Task.parts] using hp
  | advance i =>
    refine gives <| .ite (fun _ => ?_) fun _ => .pure ?_
    · split
      · exact .pure (by simpa [Task.Only, Task.parts] using hp)
      · exact .fail rfl
    · simpa [Task.Only, Task.parts] using hp
  | call callee count site =>
    exact gives <| (Gives.popMany _).andThen fun args => callValue_confined callee args site
  | operate slot count site =>
    exact gives <| (Gives.popMany _).andThen fun args => (Gives.load slot).andThen fun v =>
      callValue_confined v args site
  | enterRoutine scope environ args body => exact absurd rfl (hroutine scope environ args body)
  | print values => exact gives <| print_confined values
  | coerce kind node operand baseline =>
    cases kind with
    | deprocedure => exact gives <| Gives.pop.andThen fun v => callValue_confined v [] node
    | _ => exact absurd rfl hv
  | _ => exact absurd rfl hv

end

/-- Only the evaluation of a jump complains of a label. -/
theorem exec_anchored (hs : m.outline.Sound job m.frames.nextSerial)
    (ht : m.annotations.Truthful job) {t : Task} (ha : m.outline.Admits t)
    (hjump : ∀ n id, t = .elaborate n → job.program.tree.kind n ≠ .jump id) :
    wp (t.exec job) (fun _ _ => True) (fun s _ => s.Anchored) m := by
  by_cases hr : ∃ scope environ args body, t = .enterRoutine scope environ args body
  · obtain ⟨scope, environ, args, body, rfl⟩ := hr
    refine wp_mono (((Gives.enterAt job scope environ).andThen fun before =>
      (Gives.modify _).andThen fun _ => Gives.pure (Q := fun _ => True) trivial) m)
      (fun _ _ _ => trivial) fun _ _ h => h
  · exact wp_mono (exec_confined (.all job.program) hs ht ha (fun _ _ => trivial) (fun _ _ h => h)
      hjump fun scope environ args body h => hr ⟨scope, environ, args, body, h⟩)
      (fun _ _ _ => trivial) fun _ _ h => h

end Exec

end Algol68
