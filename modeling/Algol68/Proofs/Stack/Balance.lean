import Algol68.Proofs.Jump.Landing
import Algol68.Proofs.Stack.CallFree
import Algol68.Proofs.Stack.Elaborate

/-! The discipline of the expression stack along runs. What a unit is evaluated on top of is never
touched: the unit leaves it with one value on top or none, as its mode says, and where it ends in
a signal there may be values left above it, but it was never short of one. -/

namespace Algol68

open Agenda (Balanced)

variable {job : Job} {P : List Value} {m : Machine} {e : Nat}

namespace Exec

theorem operate_balances {slot : Slot} {count : Nat} {site : NodeId} (hP : P <+: m.stack.toList)
    (hd : P.length + count ≤ m.stack.size)
    (he : e + count = m.stack.size + (job.program.tree.mode site).worth)
    (hc : ∀ callee, m.frames.load slot = .ok callee → callee.YieldsAt job.program.tree site) :
    BalancesAt job.program.tree P (operate job slot count site) e m := by
  simp only [BalancesAt, operate, wp_bind, wp_popMany, wp_load]
  refine ⟨fun h => by omega, fun _ => ⟨fun callee hl => ?_, fun f hf => ⟨?_, ?_⟩⟩⟩
  · refine (callValue_balances (hc callee hl)).at (prefix_shrink hP (by omega)) ?_ ?_
    · simp only [Array.size_shrink]
      omega
    · simp only [Array.size_shrink]
      omega
  · exact prefix_shrink hP (by omega)
  · exact (Signal.clean_fault f).mpr (Cause.ofStack_of_local (FrameStack.load_error hf))

theorem deprocedure_balances (node operand : NodeId) (baseline : Nat) (hP : P <+: m.stack.toList)
    (hd : P.length + 1 ≤ m.stack.size)
    (he : e + 1 = m.stack.size + (job.program.tree.mode node).worth)
    (hc : ∀ callee, m.stack.back? = some callee → callee.YieldsAt job.program.tree node) :
    BalancesAt job.program.tree P (coerce job .deprocedure node operand baseline) e m := by
  simp only [BalancesAt, coerce, wp_bind, wp_pop]
  constructor
  · intro S callee hS
    rw [hS, Array.size_push] at hd he
    rw [hS] at hP
    have hcallee := hc callee (by rw [hS, Array.back?_push])
    exact (callValue_balances hcallee).at (prefix_of_push hP (Nat.le_of_succ_le_succ hd))
      (Nat.le_of_succ_le_succ hd) (by simp only; omega)
  · intro hS
    simp [hS] at hd

theorem aggregate_balances {mode : ModeId} {baseline : Nat} (hP : P <+: m.stack.toList)
    (hb : P.length ≤ baseline) (hd : baseline ≤ m.stack.size) (he : e = baseline + mode.worth) :
    BalancesAt job.program.tree P (do aggregate job mode baseline; return []) e m := by
  by_cases hm : mode = .void
  · simp only [BalancesAt, aggregate, hm, if_true, wp_bind, wp_cut]
    refine ⟨prefix_shrink hP hb, Balanced.nil_iff.mpr ?_⟩
    rw [he, hm, ModeId.worth_void, Array.size_shrink]
    omega
  · rw [ModeId.worth_of_ne hm] at he
    simp only [BalancesAt, aggregate, hm, if_false, wp_bind, wp_depth, Nat.not_lt.mpr hd]
    have made := popMany_shifts (P := P) (m.stack.size - baseline) m hP (by omega)
    refine wp_mono made (fun values m' h => ?_) fun _ _ h => h
    have display := Value.display_ordinary job.program.modes mode values
    have pushed : Shifts P (do push job (← lift (Value.display job.program.modes mode values))) 0 1 :=
      .neutral (lift_neutral display) fun v => push_shifts job v
    have hd' := length_le_depth h.1
    have he' : e + 0 = m'.stack.size + 1 := by omega
    have left := (Balances.shifts (t := job.program.tree) pushed).at h.1 hd' he'
    rwa [BalancesAt, wp_bind] at left

/-- Every task that is done leaves the stack as it is said to. -/
theorem exec_balances (hv : job.program.tree.VoidConsistent) (ht : m.annotations.Truthful job)
    (hP : P <+: m.stack.toList) {t : Task} (hl : ∀ c, t ≠ .labelled c)
    (hf : t.Fits job.program.tree) (hm : t.Moves job.program.tree P.length m.stack.size e)
    (hc : ∀ callee site, t.callee? m = some (callee, site) →
      callee.YieldsAt job.program.tree site) :
    BalancesAt job.program.tree P (t.exec job) e m := by
  have done {x : Exec Unit} (hx : Shifts P x t.uses (t.leaves job.program.tree))
      (hm : P.length + t.uses ≤ m.stack.size ∧
        e + t.uses = m.stack.size + t.leaves job.program.tree) :
      BalancesAt job.program.tree P (do x; return []) e m :=
    (Balances.shifts hx).at hP hm.1 hm.2
  cases t with
  | unit node =>
    obtain ⟨-, rfl⟩ := hm
    exact unit_balances ht hP node
  | elaborate node =>
    obtain ⟨-, rfl⟩ := hm
    exact elaborate_balances hv ht hP node
  | settle node => exact done (modify_neutral fun _ => rfl).shifts hm
  | within node => exact (Balances.done (u := 0)).at hP hm.1 hm.2
  | yields mode baseline =>
    obtain ⟨-, hd, rfl⟩ := hm
    have expected : (if mode = .void then baseline else baseline + 1) = baseline + mode.worth := by
      unfold ModeId.worth
      split <;> rfl
    simp only [BalancesAt, Task.exec, yields, wp_bind, wp_depth, expected, ← hd, ne_eq,
      not_true_eq_false, if_false]
    exact ⟨hP, .refl⟩
  | cut baseline =>
    obtain ⟨hb, hd, rfl⟩ := hm
    refine ⟨prefix_shrink hP hb, Balanced.nil_iff.mpr ?_⟩
    simp only [Array.size_shrink]
    omega
  | leave depth => exact done (modify_neutral fun _ => rfl).shifts hm
  | clause node enquiry =>
    obtain ⟨-, rfl⟩ := hm
    exact clause_balances hv ht hP hf
  | labelled c => exact absurd rfl (hl c)
  | branch thenPart elsePart mode => exact (branch_balances hf).at hP hm.1 hm.2
  | choose alternatives outPart mode => exact (choose_balances hf).at hP hm.1 hm.2
  | conform alternatives outPart mode => exact (conform_balances hf).at hP hm.1 hm.2
  | store slot v => exact done (store_neutral slot v).shifts hm
  | bind slot => exact (taking_balances (store_neutral slot)).at hP hm.1 hm.2
  | declare slot init => exact (declare_balances hf).at hP hm.1 hm.2
  | initialise name => exact (taking_balances (assign_neutral name)).at hP hm.1 hm.2
  | assign => exact done assignation_shifts hm
  | take g => exact (take_balances hf).at hP hm.1 hm.2
  | enterLoop i => exact (enterLoop_balances hf).at hP hm.1 hm.2
  | enterBody i => exact (enterBody_balances hf).at hP hm.1 hm.2
  | iterate i => exact (iterate_balances hf).at hP hm.1 hm.2
  | afterWhile i => exact (afterWhile_balances hf).at hP hm.1 hm.2
  | afterUntil i => exact (afterUntil_balances hf).at hP hm.1 hm.2
  | advance i => exact (advance_balances hf).at hP hm.1 hm.2
  | arguments args site => exact (arguments_balances hf).at hP hm.1 hm.2
  | call callee count site =>
    refine (Balances.bind 0 (popMany_shifts count)
      (fun args => callValue_balances (hc callee site rfl)) ?_ ?_).at hP hm.1 hm.2
    · exact Nat.le_refl count
    · simp only [Task.uses]
      omega
  | operate slot count site =>
    refine operate_balances hP hm.1 hm.2 fun callee hl => hc callee site ?_
    simp only [Task.callee?, hl]
  | enterRoutine scope environ args body =>
    exact (enterRoutine_balances scope environ args body).at hP hm.1 hm.2
  | endCall => exact done (modify_neutral fun _ => rfl).shifts hm
  | print values => exact (print_balances values).at hP hm.1 hm.2
  | dyadic op =>
    exact done (onTopTwo_shifts fun left right => op.dyadic_ordinary _ left right) hm
  | monadic op => exact (monadic_balances op).at hP hm.1 hm.2
  | indexers nodes => exact (indexers_balances hf).at hP hm.1 hm.2
  | select field => exact (onTop_balances (Value.field_ordinary field)).at hP hm.1 hm.2
  | identity positive => exact done (identity_shifts positive) hm
  | coerce kind node operand baseline =>
    cases kind with
    | void =>
      obtain ⟨hb, hd, rfl⟩ := hm
      refine ⟨prefix_shrink hP hb, Balanced.nil_iff.mpr ?_⟩
      simp only [Array.size_shrink]
      omega
    | deprocedure =>
      refine deprocedure_balances node operand baseline hP hm.1 hm.2 fun callee hb => hc callee node ?_
      simp only [Task.callee?, hb, Option.map_some]
    | dereference => exact (coerce_balances .dereference (by simp) (by simp) node operand baseline).at hP hm.1 hm.2
    | unite => exact (coerce_balances .unite (by simp) (by simp) node operand baseline).at hP hm.1 hm.2
    | widen => exact (coerce_balances .widen (by simp) (by simp) node operand baseline).at hP hm.1 hm.2
    | row => exact (coerce_balances .row (by simp) (by simp) node operand baseline).at hP hm.1 hm.2
  | shortCircuit right conjunction => exact (shortCircuit_balances hf _).at hP hm.1 hm.2
  | assert => exact assert_balances.at hP hm.1 hm.2
  | diagonal offset => exact (onRow_balances fun r => r.diagonal_ordinary offset).at hP hm.1 hm.2
  | matrix index column => exact (onRow_balances fun r => r.asMatrix_ordinary index column).at hP hm.1 hm.2
  | transpose => exact (onRow_balances fun r => r.transpose_ordinary).at hP hm.1 hm.2
  | aggregate mode baseline => exact aggregate_balances hP hm.1 hm.2.1 hm.2.2

end Exec

/-- A state of a run of one unit: what the unit is evaluated on top of is still there, and the tasks
left will bring the stack to depth `e`. -/
structure Upon (t : Tree) (P : List Value) (e : Nat) (A : Agenda) (m : Machine) : Prop where
  kept : P <+: m.stack.toList
  balanced : Balanced t P.length m.stack.size A e
  above : P.length ≤ e

theorem unwind_clean {s s' : Signal} {A : Agenda} {m m' : Machine} (hs : s.Clean)
    (h : unwind job s A m = .escaped s' m') : s'.Clean := by
  have faults {f : Fault} {A : Agenda} {m : Machine} (hf : f.cause.ofStack = false)
      (h : unwind job (.fault f) A m = .escaped s' m') : s'.Clean := by
    obtain ⟨f', hc, hu⟩ := @unwind_fault job f A m
    rw [hu] at h
    cases h
    rw [Signal.clean_fault, hc]
    exact hf
  cases s with
  | fault f => exact faults ((Signal.clean_fault f).mp hs) h
  | jump j =>
    rcases exists_first_takes j A with hn | ⟨before, c, after, rfl, hb, hc⟩
    · rw [unwind_jump_of_not_takes hn] at h
      cases h
      exact Signal.clean_jump j
    · rw [unwind_jump_of_takes hb hc] at h
      split at h
      · cases h
      · next f hf =>
        obtain ⟨label, rfl⟩ := LabelledClause.resume_eq_error hf
        exact faults rfl h

/-- A clause that goes on at a label, and what follows it. -/
theorem resumed (hv : job.program.tree.VoidConsistent) {c : LabelledClause} {floor : Nat}
    {after work : Agenda} {target : Option NodeId}
    (hc : c.Fits job.program.tree (Agenda.base floor after))
    (hw : c.resume job target = .ok work)
    (ha : ∀ k, c.EndsAt job.program.tree k → Balanced job.program.tree floor k after e) :
    Balanced job.program.tree floor c.baseline (work ++ after) e := by
  obtain ⟨unit, -, found, rfl⟩ := LabelledClause.resume_eq_ok hw
  rw [List.append_assoc]
  refine (Balanced.steps (Nat.le_refl c.baseline) (Nat.le_refl _) _).append ?_
  exact Balanced.labelled_iff.mpr ⟨hc, Exec.endsAt_walk hv hc _ found, ha⟩

namespace Upon

variable {units : NodeId → Prop} {A A' B : Agenda} {m' : Machine}

/-- What a task that is done leaves. It keeps what the innermost running clause was entered on, and
so what the unit is evaluated on. -/
theorem exec (hv : job.VoidConsistent units) {t : Task} {rest : Agenda}
    (hu : Underway job units (t :: rest ++ B) m)
    (h : Upon job.program.tree P e (t :: rest) m) :
    Exec.wp (t.exec job) (fun work m' => Upon job.program.tree P e (work ++ rest) m')
      (fun s m' => P <+: m'.stack.toList ∧ s.Clean) m := by
  by_cases hl : ∃ c, t = .labelled c
  · obtain ⟨c, rfl⟩ := hl
    obtain ⟨-, hd, hrest⟩ := Balanced.labelled_iff.mp h.balanced
    exact ⟨h.kept, hrest m.stack.size hd, h.above⟩
  · have hl : ∀ c, t ≠ .labelled c := fun c hc => hl ⟨c, hc⟩
    obtain ⟨hf, k, hm, hrest⟩ := (Balanced.cons_iff hl).mp h.balanced
    -- the part of the stack that the task must not touch
    obtain ⟨Q, hQ, hlen⟩ : ∃ Q, Q <+: m.stack.toList ∧ Q.length = Agenda.base P.length rest :=
      ⟨m.stack.toList.take (Agenda.base P.length rest), List.take_prefix _ _, by
        rw [List.length_take, Array.length_toList]
        exact Nat.min_eq_left hm.floor_le⟩
    have hPQ : P <+: Q := List.prefix_of_prefix_length_le h.kept hQ (by
      rw [hlen]
      exact hrest.le_base)
    rw [← hlen] at hm
    have done := Exec.exec_balances hv.tree hu.consistent.1.truthful hQ hl hf hm
      fun callee site hc => hv.calls t (rest ++ B) m hu callee site hc
    refine Exec.wp_mono done (fun work m' hw => ⟨hPQ.trans hw.1, ?_, h.above⟩)
      fun _ _ hs => ⟨hPQ.trans hs.1, hs.2⟩
    refine Balanced.append ?_ hrest
    rw [← hlen]
    exact hw.2

/-- A jump in the run of the unit finds the stack at least as deep as it was when the clause that
takes it was entered, and that was on top of what the unit is evaluated on. -/
theorem caught {t : Task} {before after : Agenda} {c : LabelledClause} {j : Jump}
    (hu : Underway job units (t :: (before ++ .labelled c :: after) ++ B) m)
    (h : Upon job.program.tree P e (t :: (before ++ .labelled c :: after)) m)
    (he : t.exec job m = .error (.jump j) m') (hc : c.takes j) :
    P <+: (c.caught j (m'.undo before)).stack.toList ∧
      (c.caught j (m'.undo before)).stack.size = c.baseline ∧
      c.Fits job.program.tree (Agenda.base P.length after) ∧
      ∀ k, c.EndsAt job.program.tree k → Balanced job.program.tree P.length k after e := by
  -- the clause that takes the jump is the one it lands in
  obtain ⟨node, id, before', c', after', -, -, rfl, hrest, hl⟩ := hu.lands he
  have hbase : c.baseline = j.baseline := by
    have mem : Task.labelled c ∈ before' ++ .labelled c' :: after' := by
      rw [← hrest]
      simp
    rcases List.mem_append.mp mem with hmem | hmem
    · exact absurd hc (hl.alone _ (List.mem_append_left _ hmem))
    · rcases List.mem_cons.mp hmem with heq | hmem
      · cases heq
        exact hl.baseline
      · exact absurd hc (hl.alone _ (List.mem_append_right _ hmem))
  have deep : c.baseline ≤ m'.stack.size :=
    Nat.le_trans (Balanced.baseline_le_base (A := t :: before) h.balanced)
      (h.balanced.base_le h.above)
  obtain ⟨k, hrest'⟩ := Balanced.of_append (A := t :: before) h.balanced
  obtain ⟨hfits, -, hafter⟩ := Balanced.labelled_iff.mp hrest'
  have kept : P.length ≤ c.baseline := hrest'.le_base
  have stack : (c.caught j (m'.undo before)).stack = m'.stack.shrink c.baseline := by
    simp only [LabelledClause.caught, Machine.undo_stack, hbase]
  rw [stack, Array.size_shrink]
  exact ⟨Exec.prefix_shrink h.kept kept, Nat.min_eq_left deep, hfits, hafter⟩

/-- A step of the unit leaves what it is evaluated on top of. -/
theorem step (hv : job.VoidConsistent units) (hu : Underway job units (A ++ B) m)
    (h : Upon job.program.tree P e A m) (hs : Does job (A, m) (A', m')) :
    Upon job.program.tree P e A' m' := by
  cases hs with
  | done he =>
    have done := Exec.wp_ok (h.exec hv hu) he
    exact done
  | resumed he hx =>
    obtain ⟨j, before, c, after, work, rfl, rfl, -, hc, hw, rfl, rfl⟩ := unwind_resumed hx
    obtain ⟨hkept, hdepth, hfits, hafter⟩ := h.caught hu he hc
    refine ⟨hkept, ?_, h.above⟩
    rw [hdepth]
    exact resumed hv.tree hfits hw hafter

theorem runs (hv : job.VoidConsistent units) (hu : Underway job units (A ++ B) m)
    (h : Upon job.program.tree P e A m) (hr : Runs job (A, m) (A', m')) :
    Upon job.program.tree P e A' m' := by
  generalize hx : (A, m) = x at hr
  generalize hy : (A', m') = y at hr
  induction hr generalizing A' m' with
  | refl =>
    cases hx.trans hy.symm
    exact h
  | @tail y z hr hs ih =>
    obtain ⟨A₁, m₁⟩ := y
    subst hx hy
    exact (ih rfl).step hv (hu.runs (Runs.append hr B)) hs

theorem escapes (hv : job.VoidConsistent units) (hu : Underway job units (A ++ B) m)
    (h : Upon job.program.tree P e A m) {s : Signal} (he : Escapes job (A, m) s m') :
    P <+: m'.stack.toList ∧ s.Clean := by
  obtain ⟨t, rest, m₀, m₁, s₀, hr, hx, hw⟩ := he
  have hu₀ := hu.runs (Runs.append hr B)
  have h₀ := h.runs hv hu hr
  obtain ⟨hkept, hclean⟩ := Exec.wp_error (h₀.exec hv hu₀) hx
  refine ⟨?_, unwind_clean hclean hw⟩
  rcases unwind_escaped hw with rfl | ⟨j, before, c, after, rfl, rfl, -, hc, rfl⟩
  · rwa [Machine.undo_stack]
  · rw [Machine.undo_stack]
    exact (h₀.caught hu₀ hx hc).1

end Upon

end Algol68
