import Algol68.Proofs.Stack.Consistency

/-! What a task does to the depth of the expression stack. Most tasks take some values and leave
some; a few cut back to a depth noted before. An agenda is balanced when its tasks, done in order,
always find the values they take above a floor. -/

namespace Algol68

variable {t : Tree} {floor : Nat}

/-- Every unit among these yields a value. -/
abbrev Tree.AllYield (t : Tree) (ns : List NodeId) : Prop := ∀ n ∈ ns, t.mode n ≠ .void

/-- These yield a value exactly when a construct of the mode does. -/
abbrev Tree.AllYieldAs (t : Tree) (mode : ModeId) (ns : List NodeId) : Prop :=
  ∀ n ∈ ns, t.mode n = .void ↔ mode = .void

structure LoopParts.Fits (t : Tree) (p : LoopParts) : Prop where
  whilePart : t.AllYield p.whilePart.toList
  untilPart : t.AllYield p.untilPart.toList
  doPart : t.mode p.doPart = .void

namespace Purpose

/-- The number of values that using gathered integers leaves. -/
def leaves : Purpose → Nat
  | .loop _ => 0
  | _ => 1

def Fits (t : Tree) : Purpose → Prop
  | .loop parts => parts.Fits t
  | .diagonal operand | .matrix operand _ => t.mode operand ≠ .void
  | .generate _ | .slice .. => True

end Purpose

namespace Task

/-- The nodes a task holds yield values where it needs them. -/
def Fits (t : Tree) : Task → Prop
  | .clause n enquiry => enquiry → t.mode n ≠ .void
  | .branch thenPart elsePart mode => t.AllYieldAs mode (thenPart :: elsePart.toList)
  | .choose alternatives outPart mode => t.AllYieldAs mode (alternatives ++ outPart.toList)
  | .conform alternatives outPart mode =>
    t.AllYieldAs mode (t.conformityUnits alternatives ++ outPart.toList)
  | .declare _ init => t.AllYield init.toList
  | .take g => g.purpose.Fits t ∧ t.AllYield (presentUnits g.wanted)
  | .enterLoop i | .enterBody i | .iterate i | .afterWhile i | .afterUntil i | .advance i =>
    i.parts.Fits t
  | .arguments args _ => t.AllYield args
  | .indexers nodes => t.AllYield (presentUnits (Exec.indexerUnits t nodes).1)
  | .shortCircuit right _ => t.mode right ≠ .void
  | _ => True

/-- The number of values a task takes from the stack. -/
def uses : Task → Nat
  | .call _ count _ | .operate _ count _ => count
  | .assign | .dyadic _ | .identity _ => 2
  | .branch .. | .choose .. | .conform .. | .bind _ | .declare .. | .initialise _ | .take _
  | .afterWhile _ | .afterUntil _ | .arguments .. | .monadic _ | .indexers _ | .select _
  | .coerce .. | .shortCircuit .. | .assert | .diagonal _ | .matrix .. | .transpose => 1
  | _ => 0

/-- The number of values there are in their place once the work of the task is done. -/
def leaves (t : Tree) : Task → Nat
  | .unit n | .elaborate n | .clause n _ | .enterRoutine _ _ _ n => (t.mode n).worth
  | .arguments _ site | .call _ _ site | .operate _ _ site | .coerce .deprocedure site _ _ =>
    (t.mode site).worth
  | .branch _ _ mode | .choose _ _ mode | .conform _ _ mode => mode.worth
  | .take g => g.purpose.leaves
  | .assign | .dyadic _ | .identity _ | .monadic _ | .indexers _ | .select _ | .coerce ..
  | .shortCircuit .. | .diagonal _ | .matrix .. | .transpose => 1
  | _ => 0

/-- A task done at depth `d` will have brought the stack to depth `e`, and needs nothing below the
floor. -/
def Moves (t : Tree) (floor : Nat) (task : Task) (d e : Nat) : Prop :=
  match task with
  | .cut baseline | .coerce .void _ _ baseline => floor ≤ baseline ∧ baseline ≤ d ∧ e = baseline
  | .aggregate mode baseline => floor ≤ baseline ∧ baseline ≤ d ∧ e = baseline + mode.worth
  | .yields mode baseline => floor ≤ d ∧ d = baseline + mode.worth ∧ e = d
  | task => floor + task.uses ≤ d ∧ e + task.uses = d + task.leaves t

theorem Moves.floor_le {task : Task} {d e : Nat} (h : task.Moves t floor d e) : floor ≤ d := by
  unfold Moves at h
  split at h <;> omega

end Task

namespace LabelledClause

/-- What is noted of a running clause is true of it, and it was entered above the floor. -/
structure Fits (t : Tree) (floor : Nat) (c : LabelledClause) : Prop where
  clause : ∃ scope items, t.kind c.serial = .serialClause scope items ∧ c.items = t.list items
  baseline : floor ≤ c.baseline

/-- The depths of the stack at which a running clause can come to its end. -/
def EndsAt (t : Tree) (c : LabelledClause) (d : Nat) : Prop :=
  if t.mode c.serial = .void then c.baseline ≤ d else d = c.baseline + 1

theorem EndsAt.baseline_le {c : LabelledClause} {d : Nat} (h : c.EndsAt t d) : c.baseline ≤ d := by
  unfold EndsAt at h
  split at h <;> omega

end LabelledClause

namespace Agenda

/-- The depth below which the first tasks of an agenda need nothing: that at which the innermost
running clause was entered, or else a given one. -/
def base (floor : Nat) : Agenda → Nat
  | [] => floor
  | .labelled c :: _ => c.baseline
  | _ :: A => base floor A

@[simp] theorem base_nil : base floor [] = floor := rfl

theorem base_cons {task : Task} (h : ∀ c, task ≠ .labelled c) (A : Agenda) :
    base floor (task :: A) = base floor A := by
  cases task with
  | labelled c => exact absurd rfl (h c)
  | _ => rfl

theorem base_append (A B : Agenda) :
    base floor (A ++ B) = base (base floor B) A := by
  induction A with
  | nil => rfl
  | cons task A ih =>
    cases task with
    | labelled c => rfl
    | _ => exact ih

theorem base_of_notMem {A : Agenda} (h : ∀ task ∈ A, ∀ c, task ≠ .labelled c) :
    base floor A = floor := by
  induction A with
  | nil => rfl
  | cons task A ih =>
    rw [base_cons (h task (by simp)), ih fun u hu => h u (by simp [hu])]

@[simp] theorem base_steps (baseline : Nat) (steps : List ChainStep) :
    base floor (steps.map (·.task baseline)) = floor := by
  apply base_of_notMem
  exact ChainStep.forall_task (by simp) (by simp) steps

@[simp] theorem base_units (ns : List NodeId) :
    base floor (ns.map .unit) = floor := by
  apply base_of_notMem
  intro task ht
  obtain ⟨n, -, rfl⟩ := List.mem_map.mp ht
  simp

@[simp] theorem base_cuts (baseline : Nat) (ns : List NodeId) :
    base floor (ns.flatMap fun n => [.unit n, .cut baseline]) = floor := by
  apply base_of_notMem
  intro task ht
  obtain ⟨n, -, hn⟩ := List.mem_flatMap.mp ht
  simp only [List.mem_cons, List.not_mem_nil, or_false] at hn
  rcases hn with rfl | rfl <;> simp

/-- The tasks of an agenda, done in order from depth `d`, bring the stack to depth `e`. A running
clause may come to its end more than once, so what follows it must do so from wherever it ends. -/
def Balanced (t : Tree) (floor : Nat) : Nat → Agenda → Nat → Prop
  | d, [], e => d = e
  | d, .labelled c :: A, e =>
    c.Fits t (base floor A) ∧ c.EndsAt t d ∧ ∀ k, c.EndsAt t k → Balanced t floor k A e
  | d, task :: A, e =>
    task.Fits t ∧ ∃ k, task.Moves t (base floor A) d k ∧ Balanced t floor k A e

namespace Balanced

variable {A B : Agenda} {d e k : Nat}

@[simp] theorem nil_iff : Balanced t floor d [] e ↔ d = e := by rw [Balanced]

theorem labelled_iff {c : LabelledClause} : Balanced t floor d (.labelled c :: A) e ↔
    c.Fits t (base floor A) ∧ c.EndsAt t d ∧ ∀ k, c.EndsAt t k → Balanced t floor k A e := by
  rw [Balanced]

theorem cons_iff {task : Task} (h : ∀ c, task ≠ .labelled c) :
    Balanced t floor d (task :: A) e ↔
      task.Fits t ∧ ∃ k, task.Moves t (base floor A) d k ∧ Balanced t floor k A e := by
  cases task with
  | labelled c => exact absurd rfl (h c)
  | _ => rw [Balanced]; simp

theorem append (h : Balanced t (base floor B) d A k) (h' : Balanced t floor k B e) :
    Balanced t floor d (A ++ B) e := by
  induction A generalizing d with
  | nil =>
    rw [nil_iff] at h
    exact h ▸ h'
  | cons task A ih =>
    by_cases hl : ∃ c, task = .labelled c
    · obtain ⟨c, rfl⟩ := hl
      rw [labelled_iff] at h
      rw [List.cons_append, labelled_iff, base_append]
      exact ⟨h.1, h.2.1, fun k' hk => ih (h.2.2 k' hk)⟩
    · have hl : ∀ c, task ≠ .labelled c := fun c hc => hl ⟨c, hc⟩
      rw [cons_iff hl] at h
      obtain ⟨hf, k', hm, hA⟩ := h
      rw [List.cons_append, cons_iff hl, base_append]
      exact ⟨hf, k', hm, ih hA⟩

theorem of_append (h : Balanced t floor d (A ++ B) e) : ∃ k, Balanced t floor k B e := by
  induction A generalizing d with
  | nil => exact ⟨d, h⟩
  | cons task A ih =>
    rw [List.cons_append] at h
    by_cases hl : ∃ c, task = .labelled c
    · obtain ⟨c, rfl⟩ := hl
      rw [labelled_iff] at h
      exact ih (h.2.2 d h.2.1)
    · obtain ⟨-, k, -, hA⟩ := (cons_iff fun c hc => hl ⟨c, hc⟩).mp h
      exact ih hA

/-- The stack is as deep as the first task asks for. -/
theorem base_le (h : Balanced t floor d A e) (he : floor ≤ e) : base floor A ≤ d := by
  cases A with
  | nil =>
    rw [nil_iff] at h
    rw [h]
    exact he
  | cons task A =>
    by_cases hl : ∃ c, task = .labelled c
    · obtain ⟨c, rfl⟩ := hl
      exact (labelled_iff.mp h).2.1.baseline_le
    · have hl : ∀ c, task ≠ .labelled c := fun c hc => hl ⟨c, hc⟩
      obtain ⟨-, k, hm, -⟩ := (cons_iff hl).mp h
      rw [base_cons hl]
      exact hm.floor_le

/-- Nor is it less deep than any running clause asks for. -/
theorem baseline_le_base {c : LabelledClause} (h : Balanced t floor d (A ++ .labelled c :: B) e) :
    c.baseline ≤ base floor (A ++ .labelled c :: B) := by
  induction A generalizing d with
  | nil => exact Nat.le_refl _
  | cons task A ih =>
    rw [List.cons_append] at h ⊢
    by_cases hl : ∃ c, task = .labelled c
    · obtain ⟨b, rfl⟩ := hl
      obtain ⟨hf, hd, hA⟩ := labelled_iff.mp h
      exact Nat.le_trans (ih (hA d hd)) hf.baseline
    · have hl : ∀ c, task ≠ .labelled c := fun c hc => hl ⟨c, hc⟩
      obtain ⟨-, k, -, hA⟩ := (cons_iff hl).mp h
      rw [base_cons hl]
      exact ih hA

theorem le_base (h : Balanced t floor d A e) : floor ≤ base floor A := by
  induction A generalizing d with
  | nil => exact Nat.le_refl _
  | cons task A ih =>
    by_cases hl : ∃ c, task = .labelled c
    · obtain ⟨c, rfl⟩ := hl
      obtain ⟨hf, hd, hA⟩ := labelled_iff.mp h
      exact Nat.le_trans (ih (hA d hd)) hf.baseline
    · have hl : ∀ c, task ≠ .labelled c := fun c hc => hl ⟨c, hc⟩
      obtain ⟨-, k, -, hA⟩ := (cons_iff hl).mp h
      rw [base_cons hl]
      exact ih hA

theorem cons {task : Task} (hl : ∀ c, task ≠ .labelled c) (hf : task.Fits t)
    (hm : task.Moves t (base floor A) d k) (h : Balanced t floor k A e) :
    Balanced t floor d (task :: A) e := (cons_iff hl).mpr ⟨hf, k, hm, h⟩

theorem refl : Balanced t floor d [] d := nil_iff.mpr rfl

theorem unit {n : NodeId} (hd : base floor A ≤ d)
    (h : Balanced t floor (d + (t.mode n).worth) A e) : Balanced t floor d (.unit n :: A) e :=
  cons (by simp) trivial ⟨hd, rfl⟩ h

theorem clause {n : NodeId} {enquiry : Bool} (hd : base floor A ≤ d)
    (hn : enquiry → t.mode n ≠ .void) (h : Balanced t floor (d + (t.mode n).worth) A e) :
    Balanced t floor d (.clause n enquiry :: A) e :=
  cons (by simp) hn ⟨hd, rfl⟩ h

theorem enquiry {n : NodeId} (hd : base floor A ≤ d) (hn : t.mode n ≠ .void)
    (h : Balanced t floor (d + 1) A e) : Balanced t floor d (.clause n true :: A) e :=
  clause hd (fun _ => hn) (by rwa [ModeId.worth_of_ne hn])

theorem leave {depth : Nat} (hd : base floor A ≤ d) (h : Balanced t floor d A e) :
    Balanced t floor d (.leave depth :: A) e := cons (by simp) trivial ⟨hd, rfl⟩ h

theorem row (hd : floor ≤ d) (ns : List NodeId) :
    Balanced t floor d (ns.map .unit) (d + t.worth ns) := by
  induction ns generalizing d with
  | nil => exact refl
  | cons n ns ih =>
    have rest := ih (d := d + (t.mode n).worth) (by omega)
    rw [Nat.add_assoc] at rest
    exact unit (by rwa [base_units]) rest

theorem cutRow (hd : floor ≤ d) (ns : List NodeId) :
    Balanced t floor d (ns.flatMap fun n => [.unit n, .cut d]) d := by
  induction ns with
  | nil => exact refl
  | cons n ns ih =>
    rw [List.flatMap_cons]
    refine append ?_ ih
    rw [base_cuts]
    exact unit hd (cons (by simp) trivial ⟨hd, Nat.le_add_right _ _, rfl⟩ refl)

theorem unary {n : NodeId} {task : Task} (hd : floor ≤ d) (hn : t.mode n ≠ .void)
    (hl : ∀ c, task ≠ .labelled c) (hf : task.Fits t) (hm : task.Moves t floor (d + 1) e) :
    Balanced t floor d [.unit n, task] e := by
  apply unit (by rwa [base_cons hl])
  rw [ModeId.worth_of_ne hn]
  exact cons hl hf hm refl

theorem binary {n m : NodeId} {task : Task} (hd : floor ≤ d) (hn : t.mode n ≠ .void)
    (hm : t.mode m ≠ .void) (hl : ∀ c, task ≠ .labelled c) (hf : task.Fits t)
    (hmove : task.Moves t floor (d + 2) e) : Balanced t floor d [.unit n, .unit m, task] e := by
  apply unit (by rwa [base_cons (by simp), base_cons hl])
  rw [ModeId.worth_of_ne hn]
  exact unary (Nat.le_succ_of_le hd) hm hl hf hmove

theorem steps {baseline : Nat} (hb : floor ≤ baseline) (hd : baseline ≤ d)
    (steps : List ChainStep) :
    Balanced t floor d (steps.map (·.task baseline)) (t.depthAfter baseline d steps) := by
  induction steps generalizing d with
  | nil => exact refl
  | cons s steps ih =>
    cases s with
    | unit n =>
      apply unit
      · rw [base_steps]
        exact Nat.le_trans hb hd
      · exact ih (Nat.le_add_right_of_le hd)
    | boundary =>
      refine cons (by simp [ChainStep.task]) trivial ?_ (ih (Nat.le_refl _))
      rw [base_steps]
      exact ⟨hb, hd, rfl⟩

theorem units (hd : base floor A ≤ d) {ns : List NodeId} (hn : t.AllYield ns)
    (h : Balanced t floor (d + ns.length) A e) :
    Balanced t floor d (ns.map .unit ++ A) e := by
  refine (row hd ns).append ?_
  rwa [Tree.worth_of_ne hn]

end Balanced

end Agenda

end Algol68
