import Algol68.Proofs.Stack.Tasks

/-! Units and clauses on the expression stack. A unit leaves one value or none, as its mode says,
whether it is evaluated by its kind or as it was recorded. A serial clause does so wherever it
comes to its end. -/

namespace Algol68.Exec

open Agenda (Balanced)

variable {job : Job} {P : List Value} {m : Machine} {e : Nat}

/-- Started in `m`, the operation puts work in its place that brings the stack to depth `e`. -/
def BalancesAt (t : Tree) (P : List Value) (x : Exec Agenda) (e : Nat) (m : Machine) : Prop :=
  wp x (fun work m' => P <+: m'.stack.toList ∧ Balanced t P.length m'.stack.size work e)
    (fun s m' => P <+: m'.stack.toList ∧ s.Clean) m

theorem Balances.at {t : Tree} {x : Exec Agenda} {u l : Nat} (h : Balances t P x u l)
    (hP : P <+: m.stack.toList) (hd : P.length + u ≤ m.stack.size)
    (he : e + u = m.stack.size + l) : BalancesAt t P x e m :=
  wp_mono (h m hP hd) (fun _ _ hw => ⟨hw.1, hw.2 e he⟩) fun _ _ hs => hs

theorem BalancesAt.append {t : Tree} {x : Exec Agenda} {k : Nat} (h : BalancesAt t P x k m)
    {B : Agenda} (hb : Agenda.base P.length B = P.length) (hB : Balanced t P.length k B e) :
    BalancesAt t P (do return (← x) ++ B) e m := by
  rw [BalancesAt, wp_bind]
  refine wp_mono h (fun _ _ hw => ⟨hw.1, ?_⟩) fun _ _ hs => hs
  exact Balanced.append (by rw [hb]; exact hw.2) hB

theorem BalancesAt.work {t : Tree} (hP : P <+: m.stack.toList) {A : Agenda}
    (h : Balanced t P.length m.stack.size A e) : BalancesAt t P (pure A) e m := ⟨hP, h⟩

theorem length_le_depth (hP : P <+: m.stack.toList) : P.length ≤ m.stack.size := by
  simpa using hP.length_le

theorem unit_balances (ht : m.annotations.Truthful job) (hP : P <+: m.stack.toList)
    (node : NodeId) :
    BalancesAt job.program.tree P (Exec.unit node)
      (m.stack.size + (job.program.tree.mode node).worth) m := by
  have hd := length_le_depth hP
  have evaluated (after : Task) (hl : ∀ c, after ≠ .labelled c)
      (hf : after.Fits job.program.tree) (hm : ∀ d, P.length ≤ d →
        after.Moves job.program.tree P.length d d) {n : NodeId}
      (hn : job.program.tree.mode n = job.program.tree.mode node) (first : Task)
      (hfirst : first = .elaborate n ∨ first = .unit n) :
      Balanced job.program.tree P.length m.stack.size [first, after]
        (m.stack.size + (job.program.tree.mode node).worth) := by
    have rest : Balanced job.program.tree P.length
        (m.stack.size + (job.program.tree.mode node).worth) [after] _ :=
      .cons hl hf (hm _ (Nat.le_add_right_of_le hd)) .refl
    have hd' : Agenda.base P.length [after] ≤ m.stack.size := by rwa [Agenda.base_cons hl]
    rcases hfirst with rfl | rfl
    · exact .cons (by simp) trivial ⟨hd', by simp only [Task.uses, Task.leaves, hn, Nat.add_zero]⟩ rest
    · exact .unit hd' (by rw [hn]; exact rest)
  simp only [BalancesAt, Exec.unit, wp_bind, wp_count, wp_get]
  split
  · exact ⟨hP, evaluated (.settle node) (by simp) trivial (fun _ hd => ⟨hd, rfl⟩) rfl _ (.inl rfl)⟩
  · next source hs =>
    refine ⟨hP, ?_⟩
    have hmode : job.program.tree.mode source = job.program.tree.mode node := by
      rcases ht.strategy node _ hs with hsource | ⟨-, hr⟩
      · exact congrArg _ hsource
      · exact hr.mode
    refine evaluated (.within node) (by simp) trivial (fun _ hd => ⟨hd, rfl⟩) hmode _ ?_
    split
    · next h => exact .inl (by rw [h])
    · exact .inr rfl
  · next kind source hk hs =>
    refine ⟨hP, ?_⟩
    have hsource : source = node := by
      rcases ht.strategy node _ hs with hsource | ⟨hkind, -⟩
      · exact hsource
      · exact absurd hkind hk
    rw [hsource]
    exact evaluated (.within node) (by simp) trivial (fun _ hd => ⟨hd, rfl⟩) rfl _ (.inl rfl)

theorem linearChain_neutral (serial : NodeId) (items : List NodeId) :
    Neutral (linearChain job serial items) := by
  intro m
  simp only [linearChain, wp_bind, wp_get]
  split <;> rfl

theorem alternatives_neutral (node : NodeId) (items : List NodeId) :
    Neutral (alternatives job node items) := by
  intro m
  simp only [alternatives, wp_bind, wp_get]
  split <;> rfl

/-- A clause that runs from its start, or from a labelled unit that it has, comes to its end at a
depth at which it can. -/
theorem endsAt_walk (hv : job.program.tree.VoidConsistent) {c : LabelledClause} {floor : Nat}
    (hc : c.Fits job.program.tree floor) (pending : Option NodeId)
    (hw : (job.program.tree.walk pending c.items).pending = none) :
    c.EndsAt job.program.tree (job.program.tree.depthAfter c.baseline c.baseline
      (job.program.tree.walk pending c.items).steps) := by
  obtain ⟨scope, items, hk, hi⟩ := hc.clause
  unfold LabelledClause.EndsAt
  split
  · exact Tree.le_depthAfter (Nat.le_refl _) _
  · next hm =>
    have ending := hv.ending c.serial scope items hk hm
    rw [← hi] at ending
    rw [Tree.walk_eq] at hw ⊢
    cases pending with
    | none =>
      rw [ClauseItem.walk_none]
      exact ending.depthAfter_chain c.baseline
    | some target => exact ending.depthAfter_walk c.baseline hw

/-- Announcing a clause leaves the stack alone and notes what it is given. -/
theorem announce_keeps (serial : NodeId) (items : List NodeId) (baseline : Nat) (m : Machine) :
    wp (announce serial items baseline)
      (fun c m' => m'.stack = m.stack ∧ c.serial = serial ∧ c.items = items ∧
        c.baseline = baseline)
      (fun s m' => m'.stack = m.stack ∧ s.Clean) m := by
  simp only [announce, wp_bind, wp_get, wp_lift]
  have local_clean {f : Fault} (h : f.cause.ofLocal = true) : (Signal.fault f).Clean :=
    (Signal.clean_fault f).mpr (Cause.ofStack_of_local h)
  refine ⟨fun index _ => ⟨fun handle _ => ⟨rfl, rfl, rfl, rfl⟩, fun f hf => ⟨trivial, ?_⟩⟩,
    fun f hf => ⟨trivial, ?_⟩⟩
  · exact local_clean (FrameStack.handle_error hf)
  · exact local_clean (FrameStack.top_error hf)

theorem clause_balances (hv : job.program.tree.VoidConsistent)
    (ht : m.annotations.Truthful job) (hP : P <+: m.stack.toList) {node : NodeId} {enquiry : Bool}
    (hf : (Task.clause node enquiry).Fits job.program.tree) :
    BalancesAt job.program.tree P (clause job node enquiry)
      (m.stack.size + (job.program.tree.mode node).worth) m := by
  have hd := length_le_depth hP
  by_cases hs : ∃ scope items, job.program.tree.kind node = .serialClause scope items
  · obtain ⟨scope, range, hk⟩ := hs
    -- whichever way the clause runs, it is entered at the depth of the stack
    have fits (frame activation : Nat) : LabelledClause.Fits job.program.tree P.length
        ⟨node, job.program.tree.list range, frame, activation, m.stack.size⟩ :=
      ⟨⟨scope, range, hk, rfl⟩, hd⟩
    have ending (c : LabelledClause) (hserial : c.serial = node)
        (hbase : c.baseline = m.stack.size) {k : Nat} (hc : c.EndsAt job.program.tree k) :
        Balanced job.program.tree P.length k
          (if !enquiry && job.program.tree.mode node = .void then [.cut m.stack.size] else [])
          (m.stack.size + (job.program.tree.mode node).worth) := by
      subst hserial
      unfold LabelledClause.EndsAt at hc
      rw [hbase] at hc
      by_cases hm : job.program.tree.mode c.serial = .void
      · have henquiry : enquiry = false := by
          cases enquiry with
          | false => rfl
          | true => exact absurd hm (hf rfl)
        simp only [hm, henquiry, if_true] at hc ⊢
        exact .cons (by simp) trivial ⟨hd, hc, rfl⟩ .refl
      · simp only [hm, if_false] at hc
        simp only [hm, decide_false, Bool.and_false, Bool.false_eq_true, if_false, hc,
          ModeId.worth_of_ne hm]
        exact .refl
    have plain : Agenda.base P.length
        (if !enquiry && job.program.tree.mode node = .void then [.cut m.stack.size] else []) =
          P.length := by
      split <;> rfl
    simp only [BalancesAt, clause, hk, wp_bind, wp_depth]
    split
    · rw [wp_bind]
      refine wp_mono (announce_keeps node _ _ m) ?_ fun s m' h => ⟨h.1 ▸ hP, h.2⟩
      rintro c m' ⟨hm', hserial, hitems, hbase⟩
      rw [wp_pure, hm']
      refine ⟨hP, ?_⟩
      have hc : c.Fits job.program.tree P.length :=
        ⟨⟨scope, range, hserial ▸ hk, hitems⟩, hbase ▸ hd⟩
      have hw := endsAt_walk hv hc none (by rw [Tree.walk_eq, ClauseItem.walk_none])
      rw [hitems, hbase] at hw
      refine (Balanced.steps (Nat.le_of_eq hbase) (Nat.le_refl _) _).append ?_
      refine Balanced.labelled_iff.mpr ⟨?_, hw, fun k hk => ending c hserial hbase hk⟩
      rw [plain]
      exact hc
    · next hl =>
      rw [wp_bind]
      refine wp_mono (wp_and (linearChain_neutral node _ m) (linearChain_still hk hl)) ?_
        fun _ _ h => h.2.elim
      rintro chain m' ⟨hm', -, hchain⟩
      rw [wp_pure, hm', hchain ht]
      refine ⟨hP, ?_⟩
      have c := fits 0 0
      have hw := endsAt_walk hv c none (by rw [Tree.walk_eq, ClauseItem.walk_none])
      rw [Tree.walk_eq, ClauseItem.walk_none, ← Tree.flatten_eq] at hw
      refine Balanced.append ?_ (ending _ rfl rfl hw)
      rw [plain]
      exact .steps hd (Nat.le_refl _) _
  · simp only [BalancesAt, clause]
    split
    · next hk => exact absurd ⟨_, _, hk⟩ hs
    · exact BalancesAt.work hP (.unit hd .refl)

theorem enclosed_balances (scope : ScopeId) {work : Agenda} {l : Nat}
    (hw : ∀ d, P.length ≤ d → Balanced job.program.tree P.length d work (d + l)) :
    Balances job.program.tree P (enclosed job scope work) 0 l := by
  refine .neutral (enter_neutral job scope) fun before => .work fun d e hd he => ?_
  obtain rfl : e = d + l := he
  exact (hw d hd).append (.leave (Nat.le_add_right_of_le hd) .refl)

theorem BalancesAt.checked {x : Exec Agenda} {mode : ModeId} {d : Nat} (hd : P.length ≤ d)
    (h : BalancesAt job.program.tree P x (d + mode.worth) m) :
    BalancesAt job.program.tree P (do return (← x) ++ [.yields mode d]) (d + mode.worth) m :=
  h.append rfl (.cons (by simp) trivial ⟨Nat.le_add_right_of_le hd, rfl, rfl⟩ .refl)

theorem choice_balances (hP : P <+: m.stack.toList) (scope : ScopeId) {enquiry : NodeId}
    {choice : Task} {mode : ModeId} (he : job.program.tree.mode enquiry ≠ .void)
    (hl : ∀ c, choice ≠ .labelled c) (hf : choice.Fits job.program.tree)
    (hm : ∀ d, P.length ≤ d →
      choice.Moves job.program.tree P.length (d + 1) (d + mode.worth)) :
    BalancesAt job.program.tree P
      (do return (← enclosed job scope [.clause enquiry true, choice]) ++
        [.yields mode m.stack.size])
      (m.stack.size + mode.worth) m := by
  have hd := length_le_depth hP
  have chosen : Balances job.program.tree P
      (enclosed job scope [.clause enquiry true, choice]) 0 mode.worth :=
    enclosed_balances scope fun d hd => .enquiry (by rwa [Agenda.base_cons hl]) he
      (.cons hl hf (hm d hd) .refl)
  exact .checked hd (chosen.at hP hd rfl)

theorem alternatives_balances (ht : m.annotations.Truthful job) (hP : P <+: m.stack.toList)
    {node : NodeId} {items : List NodeId}
    (hchain : job.program.chainOf node =
      some ((ChainStep.units (job.program.tree.flatten items)).map .unit))
    (scope : ScopeId) {enquiry : NodeId} (he : job.program.tree.mode enquiry ≠ .void)
    {choice : List NodeId → Task} {mode : ModeId} (hl : ∀ units c, choice units ≠ .labelled c)
    (hf : (choice (ChainStep.units (job.program.tree.flatten items))).Fits job.program.tree)
    (hm : ∀ units d, P.length ≤ d →
      (choice units).Moves job.program.tree P.length (d + 1) (d + mode.worth)) :
    BalancesAt job.program.tree P
      (do
        let units ← alternatives job node items
        return (← enclosed job scope [.clause enquiry true, choice units]) ++
          [.yields mode m.stack.size])
      (m.stack.size + mode.worth) m := by
  rw [BalancesAt, wp_bind]
  refine wp_mono (wp_and (alternatives_neutral node items m) (alternatives_still hchain)) ?_
    fun _ _ h => h.2.elim
  rintro units m' ⟨hm', -, hunits⟩
  rw [← hm'] at hP ⊢
  exact choice_balances hP scope he (hl units) (hunits ht ▸ hf) (hm units)

theorem jump_clean (id : LabelId) (m : Machine) :
    wp (elaborate.jump job id) (fun _ _ => False) (fun s m' => m' = m ∧ s.Clean) m := by
  simp only [elaborate.jump, wp_bind, wp_get]
  split
  · rw [wp_ite]
    exact ⟨fun _ => ⟨rfl, Signal.clean_jump _⟩, fun _ => ⟨rfl, (Signal.clean_fault _).mpr rfl⟩⟩
  · exact ⟨rfl, (Signal.clean_fault _).mpr rfl⟩

theorem elaborate_balances (hv : job.program.tree.VoidConsistent)
    (ht : m.annotations.Truthful job) (hP : P <+: m.stack.toList) (node : NodeId) :
    BalancesAt job.program.tree P (elaborate job node)
      (m.stack.size + (job.program.tree.mode node).worth) m := by
  have hd := length_le_depth hP
  have yields (h : Tree.pushes (job.program.tree.kind node) = true) :
      (job.program.tree.mode node).worth = 1 := ModeId.worth_of_ne (hv.pushes node h)
  have yieldsNot (h : Tree.pushesNothing (job.program.tree.kind node) = true) :
      (job.program.tree.mode node).worth = 0 := by rw [hv.pushesNothing node h, ModeId.worth_void]
  have operand (n : NodeId) (h : n ∈ job.program.tree.operands node) :
      job.program.tree.mode n ≠ .void := hv.operand node n h
  have passed (ns : List NodeId) (h : ∀ n ∈ ns, n ∈ job.program.tree.passedOn node) :
      job.program.tree.AllYieldAs (job.program.tree.mode node) ns :=
    fun n hn => hv.passedOn node n (h n hn)
  have pushed (h : Tree.pushes (job.program.tree.kind node) = true) (v : Value) :
      BalancesAt job.program.tree P (do push job v; return [])
        (m.stack.size + (job.program.tree.mode node).worth) m := by
    rw [yields h]
    exact (Balances.shifts (push_shifts job v)).at hP hd rfl
  rw [BalancesAt, elaborate, wp_bind, wp_depth]
  cases hk : job.program.tree.kind node with
  | closed scope serial =>
    refine BalancesAt.checked hd ((enclosed_balances scope fun d hd => ?_).at hP hd rfl)
    refine .clause hd (by simp) ?_
    rw [ModeId.worth_congr (passed [serial] (by simp [Tree.passedOn, hk]) serial (by simp))]
    exact .refl
  | conditional scope enquiry thenPart elsePart =>
    refine choice_balances hP scope (operand enquiry (by simp [Tree.operands, hk])) (by simp)
      (passed _ (by simp [Tree.passedOn, hk])) fun d hd => ⟨Nat.add_le_add_right hd 1, ?_⟩
    simp only [Task.uses, Task.leaves]
    omega
  | integerCase scope enquiry items outPart | conformityCase scope enquiry items outPart =>
    refine alternatives_balances ht hP (by simp only [Program.chainOf, hk]) scope
      (operand enquiry (by simp [Tree.operands, hk])) (by simp)
      (passed _ (by simp [Tree.passedOn, hk])) fun _ d hd => ⟨Nat.add_le_add_right hd 1, ?_⟩
    simp only [Task.uses, Task.leaves]
    omega
  | loop id =>
    have fits : (job.program.tree.loopParts id).Fits job.program.tree := by
      refine ⟨fun n hn => operand n ?_, fun n hn => operand n ?_, hv.doPart node id hk⟩ <;>
        simp_all [Tree.operands, presentUnits]
    refine BalancesAt.checked hd ((gather_balances (.loop _) fits ?_ []).at hP hd ?_)
    · intro n hn
      apply operand n
      simp only [presentUnits, Tree.operands, hk, List.mem_filterMap] at hn ⊢
      grind
    · rw [yieldsNot (by rw [hk]; rfl)]
      rfl
  | collateral units =>
    refine BalancesAt.work hP ((Balanced.row hd _).append ?_)
    exact .cons (by simp) trivial ⟨hd, Nat.le_add_right _ _, rfl⟩
      (.cons (by simp) trivial ⟨Nat.le_add_right_of_le hd, rfl, rfl⟩ .refl)
  | parallel units =>
    have none := yieldsNot (by rw [hk]; rfl)
    refine BalancesAt.work hP ((Balanced.cutRow hd _).append ?_)
    rw [none]
    exact .cons (by simp) trivial ⟨hd, by rw [none]; rfl, rfl⟩ .refl
  | identityDeclaration slot value =>
    rw [yieldsNot (by rw [hk]; rfl)]
    exact BalancesAt.work hP (.unary hd (operand value (by simp [Tree.operands, hk])) (by simp) trivial
      ⟨Nat.add_le_add_right hd 1, rfl⟩)
  | variableDeclaration slot generator init =>
    rw [yieldsNot (by rw [hk]; rfl)]
    refine BalancesAt.work hP (.unary hd (operand generator (by simp [Tree.operands, hk])) (by simp)
      (fun n hn => operand n ?_) ⟨Nat.add_le_add_right hd 1, rfl⟩)
    simp_all [Tree.operands]
  | modeDeclaration =>
    rw [yieldsNot (by rw [hk]; rfl)]
    exact BalancesAt.work hP .refl
  | literal | standard | formatText | nihil => exact pushed (by rw [hk]; rfl) _
  | identifier slot =>
    rw [yields (by rw [hk]; rfl)]
    exact (Balances.neutral (load_neutral slot) fun v => .shifts (push_shifts job v)).at hP hd rfl
  | skip => exact (Balances.shifts (pushUndefined_shifts job _)).at hP hd rfl
  | routineText scope params body =>
    rw [yields (by rw [hk]; rfl)]
    refine (Balances.neutral get_neutral fun m => .neutral (lift_local_neutral fun f hf => ?_)
      fun environ => .shifts (push_shifts job _)).at hP hd rfl
    exact FrameStack.environ_error hf
  | cast unit =>
    refine BalancesAt.work hP (.unit hd ?_)
    rw [ModeId.worth_congr (passed [unit] (by simp [Tree.passedOn, hk]) unit (by simp))]
    exact .refl
  | call primary args =>
    refine BalancesAt.work hP (.unary hd (operand primary (by simp [Tree.operands, hk])) (by simp)
      (fun n hn => operand n ?_) ⟨Nat.add_le_add_right hd 1, ?_⟩)
    · simp_all [Tree.operands]
    · simp only [Task.uses, Task.leaves]
      omega
  | slice primary indexers =>
    rw [yields (by rw [hk]; rfl)]
    refine BalancesAt.work hP (.unary hd (operand primary (by simp [Tree.operands, hk])) (by simp)
      (fun n hn => operand n ?_) ⟨Nat.add_le_add_right hd 1, rfl⟩)
    simp_all [Tree.operands]
  | generator heap bounds =>
    rw [yields (by rw [hk]; rfl)]
    refine (gather_balances (.generate _) trivial (fun n hn => operand n ?_) []).at hP hd
      rfl
    simpa only [Tree.operands, hk] using hn
  | selection field secondary =>
    rw [yields (by rw [hk]; rfl)]
    exact BalancesAt.work hP (.unary hd (operand secondary (by simp [Tree.operands, hk])) (by simp)
      trivial ⟨Nat.add_le_add_right hd 1, rfl⟩)
  | formula op left right =>
    have hleft := operand left (by simp [Tree.operands, hk])
    have hright := operand right (by simp [Tree.operands, hk])
    cases op with
    | standard op =>
      rw [yields (by rw [hk]; rfl)]
      exact BalancesAt.work hP (.binary hd hleft hright (by simp [applied]) trivial
        ⟨Nat.add_le_add_right hd 2, rfl⟩)
    | user slot =>
      refine BalancesAt.work hP (.binary hd hleft hright (by simp [applied]) trivial
        ⟨Nat.add_le_add_right hd 2, ?_⟩)
      simp only [applied, Task.uses, Task.leaves]
      omega
  | monadic op inner =>
    have hinner := operand inner (by simp [Tree.operands, hk])
    cases op with
    | standard op =>
      rw [yields (by rw [hk]; rfl)]
      exact BalancesAt.work hP (.unary hd hinner (by simp [applied]) trivial ⟨Nat.add_le_add_right hd 1, rfl⟩)
    | user slot =>
      refine BalancesAt.work hP (.unary hd hinner (by simp [applied]) trivial ⟨Nat.add_le_add_right hd 1, ?_⟩)
      simp only [applied, Task.uses, Task.leaves]
      omega
  | identityRelation positive left right =>
    rw [yields (by rw [hk]; rfl)]
    exact BalancesAt.work hP (.binary hd (operand left (by simp [Tree.operands, hk]))
      (operand right (by simp [Tree.operands, hk])) (by simp) trivial ⟨Nat.add_le_add_right hd 2, rfl⟩)
  | andFunction left right | orFunction left right =>
    rw [yields (by rw [hk]; rfl)]
    exact BalancesAt.work hP (.unary hd (operand left (by simp [Tree.operands, hk])) (by simp)
      (operand right (by simp [Tree.operands, hk])) ⟨Nat.add_le_add_right hd 1, rfl⟩)
  | assignation destination source =>
    rw [yields (by rw [hk]; rfl)]
    exact BalancesAt.work hP (.binary hd (operand destination (by simp [Tree.operands, hk]))
      (operand source (by simp [Tree.operands, hk])) (by simp) trivial ⟨Nat.add_le_add_right hd 2, rfl⟩)
  | coercion kind inner =>
    cases kind with
    | void =>
      rw [yieldsNot (by rw [hk]; rfl)]
      exact BalancesAt.work hP (.unit hd
        (.cons (by simp) trivial ⟨hd, Nat.le_add_right _ _, rfl⟩ .refl))
    | deprocedure =>
      refine BalancesAt.work hP (.unary hd (operand inner (by simp [Tree.operands, hk])) (by simp)
        trivial ⟨Nat.add_le_add_right hd 1, ?_⟩)
      simp only [Task.uses, Task.leaves]
      omega
    | _ =>
      rw [yields (by rw [hk]; rfl)]
      exact BalancesAt.work hP (.unary hd (operand inner (by simp [Tree.operands, hk])) (by simp)
        trivial ⟨Nat.add_le_add_right hd 1, rfl⟩)
  | transpose inner =>
    rw [yields (by rw [hk]; rfl)]
    exact BalancesAt.work hP (.unary hd (operand inner (by simp [Tree.operands, hk])) (by simp)
      trivial ⟨Nat.add_le_add_right hd 1, rfl⟩)
  | diagonal offset inner =>
    rw [yields (by rw [hk]; rfl)]
    refine (gather_balances (.diagonal inner) (operand inner (by simp [Tree.operands, hk]))
      (fun n hn => operand n ?_) []).at hP hd rfl
    simp_all [Tree.operands, presentUnits]
  | rowFunction offset inner | columnFunction offset inner =>
    rw [yields (by rw [hk]; rfl)]
    refine (gather_balances (.matrix inner _) (operand inner (by simp [Tree.operands, hk]))
      (fun n hn => operand n ?_) []).at hP hd rfl
    simp_all [Tree.operands, presentUnits]
  | jump label =>
    have raised := @jump_clean job label m
    exact wp_mono raised (fun _ _ h => h.elim) fun s m' h => ⟨h.1 ▸ hP, h.2⟩
  | assertion condition =>
    rw [yieldsNot (by rw [hk]; rfl)]
    exact BalancesAt.work hP (.unary hd (operand condition (by simp [Tree.operands, hk])) (by simp)
      trivial ⟨Nat.add_le_add_right hd 1, rfl⟩)
  | _ => exact ⟨hP, (Signal.clean_fault _).mpr rfl⟩

end Algol68.Exec
