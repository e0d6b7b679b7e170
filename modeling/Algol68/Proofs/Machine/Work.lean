import Algol68.Proofs.Machine.Natural
import Algol68.Proofs.Machine.Outcome
import Algol68.Proofs.Value.Ordinary

/-! Work on values. A task or a node that is a matter of values alone changes nothing of the machine but
the stack, which it makes no higher than its limit, and the store. It fails for no reason that lies in
frames, labels or calls, and of the nodes that a task deals with it leaves some to be evaluated. -/

namespace Algol68

/-- Whether work on values and on the stack may fail for this reason. -/
def Cause.ofValues : Cause → Bool
  | .unknownNodeKind _ | .stackUnderflow | .stackImbalance .. | .expressionStackOverflow _
  | .assertionFailed => true
  | c => c.ordinary

theorem Cause.ofValues_of_ordinary {c : Cause} (h : c.ordinary = true) : c.ofValues = true := by
  cases c <;> first | exact h | rfl

/-- A fault of work on values, raised without a position. -/
def Signal.OfValues (s : Signal) : Prop :=
  ∃ f, s = .fault f ∧ f.cause.ofValues = true ∧ f.span = none ∧ f.trace = none

theorem Signal.OfValues.of {c : Cause} (h : c.ofValues = true) : Signal.OfValues (.fault (.of c)) :=
  ⟨_, rfl, h, rfl, rfl⟩

/-- The stack, which grew no higher than its limit, and the store may be others, and nothing else. -/
structure Machine.Worked (job : Job) (m m' : Machine) : Prop where
  same : m' = { m with stack := m'.stack, store := m'.store }
  room : m'.stack.size ≤ max m.stack.size job.config.stackLimit

namespace Machine.Worked

variable {job : Job} {m m₁ m₂ : Machine}

theorem of_le (hm : m₁ = { m with stack := m₁.stack, store := m₁.store })
    (hs : m₁.stack.size ≤ m.stack.size) : m.Worked job m₁ :=
  ⟨hm, Nat.le_trans hs (Nat.le_max_left ..)⟩

theorem refl (m : Machine) : m.Worked job m := .of_le rfl (Nat.le_refl _)

theorem trans (h : m.Worked job m₁) (h' : m₁.Worked job m₂) : m.Worked job m₂ := by
  constructor
  · exact h'.same.trans (congrArg
      (fun k : Machine => { k with stack := m₂.stack, store := m₂.store }) h.same)
  · have := h.room
    have := h'.room
    omega

theorem frames (h : m.Worked job m₁) : m₁.frames = m.frames := by rw [h.same]

theorem annotations (h : m.Worked job m₁) : m₁.annotations = m.annotations := by rw [h.same]

theorem calls (h : m.Worked job m₁) : m₁.calls = m.calls := by rw [h.same]

theorem transput (h : m.Worked job m₁) : m₁.transput = m.transput := by rw [h.same]

theorem counters (h : m.Worked job m₁) : m₁.counters = m.counters := by rw [h.same]

end Machine.Worked

/-- A task that neither ends an evaluation nor prints, nor has to do with frames or calls. -/
def Task.simple : Task → Bool
  | .unit _ | .yields .. | .cut _ | .bind _ | .declare .. | .assign | .take _ | .enterLoop _
  | .arguments .. | .call .. | .operate .. | .dyadic _ | .monadic _ | .indexers _ | .select _
  | .identity _ | .coerce .. | .shortCircuit .. | .assert | .diagonal _ | .matrix .. | .transpose
  | .aggregate .. => true
  | _ => false

def Agenda.Simple (A : Agenda) : Prop := ∀ t ∈ A, t.simple

/-- Whether a task calls a procedure. -/
def Task.calls : Task → Bool
  | .call .. | .operate .. | .coerce .deprocedure .. => true
  | _ => false

/-- What using integers that were gathered leaves to do, or finding the next of those wanted. -/
inductive Purpose.Leaves (p : Purpose) (wanted : List (Option NodeId)) : Agenda → Prop where
  | nothing : p.Leaves wanted []
  | next {n : NodeId} {found : List (Option Int64)} {rest : List (Option NodeId)}
      (hn : some n ∈ wanted) (hr : ∀ c ∈ rest, c ∈ wanted) :
      p.Leaves wanted [.unit n, .take ⟨p, found, rest⟩]
  | loop {i : Iteration} (hp : p = .loop i.parts) : p.Leaves wanted [.enterLoop i]
  | diagonal {operand : NodeId} {k : Int64} (hp : p = .diagonal operand) :
      p.Leaves wanted [.unit operand, .diagonal k]
  | matrix {operand : NodeId} {k : Int64} {column : Bool} (hp : p = .matrix operand column) :
      p.Leaves wanted [.unit operand, .matrix k column]

/-- What a task that works on values leaves to do. -/
inductive Task.Leaves (t : Tree) : Task → Agenda → Prop where
  | nothing (task : Task) : Leaves t task []
  | thenPart (n : NodeId) (elsePart : Option NodeId) (mode : ModeId) :
      Leaves t (.branch n elsePart mode) [.unit n]
  | elsePart (thenPart n : NodeId) (mode : ModeId) :
      Leaves t (.branch thenPart (some n) mode) [.unit n]
  | alternative {alternatives : List NodeId} {outPart : Option NodeId} {n : NodeId}
      (h : n ∈ alternatives ∨ outPart = some n) (mode : ModeId) :
      Leaves t (.choose alternatives outPart mode) [.unit n]
  | take {g : Gathering} {A : Agenda} (h : g.purpose.Leaves g.wanted A) : Leaves t (.take g) A
  | arguments (args : List NodeId) (callee : Value) (count : Nat) (site : NodeId) :
      Leaves t (.arguments args site) (args.map .unit ++ [.call callee count site])
  | monadic (op : StandardOperator) : Leaves t (.monadic op) [.monadic op]
  | indexers {nodes : List NodeId} {base : Value} {trimmers : List Bool} {A : Agenda}
      (h : (Purpose.slice base trimmers).Leaves (Exec.indexerUnits t nodes).1 A) :
      Leaves t (.indexers nodes) A
  | right (n : NodeId) (conjunction : Bool) : Leaves t (.shortCircuit n conjunction) [.unit n]

theorem Purpose.Leaves.simple {p : Purpose} {wanted : List (Option NodeId)} {A : Agenda}
    (h : p.Leaves wanted A) : A.Simple := by
  cases h <;> simp [Agenda.Simple, Task.simple]

theorem Task.Leaves.simple {t : Tree} {task : Task} {A : Agenda} (h : task.Leaves t A) :
    A.Simple := by
  cases h with
  | take h | indexers h => exact h.simple
  | arguments args =>
    intro u hu
    simp only [List.mem_append, List.mem_map, List.mem_singleton] at hu
    rcases hu with ⟨n, -, rfl⟩ | rfl <;> rfl
  | _ => simp [Agenda.Simple, Task.simple]

namespace Exec

variable {α β : Type} {Q : α → Prop} {R : β → Prop} {job : Job}

/-- The operation is work on values, with results of one sort. -/
def Works (job : Job) (Q : α → Prop) (x : Exec α) : Prop :=
  ∀ m, wp x (fun a m' => Q a ∧ m.Worked job m') (fun s m' => s.OfValues ∧ m.Worked job m') m

namespace Works

theorem pure {a : α} (h : Q a) : Works job Q (pure a) := fun m => ⟨h, .refl m⟩

theorem bind {x : Exec α} {f : α → Exec β} (hx : Works job Q x)
    (hf : ∀ a, Q a → Works job R (f a)) : Works job R (x >>= f) := by
  intro m
  rw [wp_bind]
  refine wp_mono (hx m) (fun a m₁ ha => ?_) fun _ _ h => h
  exact wp_mono (hf a ha.1 m₁) (fun _ _ h => ⟨h.1, ha.2.trans h.2⟩) fun _ _ h =>
    ⟨h.1, ha.2.trans h.2⟩

theorem andThen {x : Exec α} {f : α → Exec β} (hx : Works job (fun _ => True) x)
    (hf : ∀ a, Works job R (f a)) : Works job R (x >>= f) := hx.bind fun a _ => hf a

theorem mono {Q' : α → Prop} {x : Exec α} (hx : Works job Q x) (h : ∀ a, Q a → Q' a) :
    Works job Q' x := fun m => wp_mono (hx m) (fun a _ ha => ⟨h a ha.1, ha.2⟩) fun _ _ h => h

theorem ite {p : Prop} [Decidable p] {x y : Exec α} (hx : p → Works job Q x)
    (hy : ¬ p → Works job Q y) : Works job Q (if p then x else y) := by
  split
  · next h => exact hx h
  · next h => exact hy h

theorem fail {c : Cause} (h : c.ofValues = true) : Works job Q (Exec.fail c) :=
  fun m => ⟨.of h, .refl m⟩

/-- What would follow a fault is not done. -/
theorem raised {c : Cause} {f : α → Exec β} (h : c.ofValues = true) :
    Works job R (Exec.fail c >>= f) := fun m => ⟨.of h, .refl m⟩

theorem get : Works job (fun _ => True) get := fun m => ⟨trivial, .refl m⟩

theorem depth : Works job (fun _ => True) depth := fun m => ⟨trivial, .refl m⟩

theorem lift {c : Checked α} (h : Ordinary c) : Works job (fun _ => True) (lift c) := by
  intro m
  rw [wp_lift]
  refine ⟨fun _ _ => ⟨trivial, .refl m⟩, fun f hf => ?_⟩
  obtain ⟨k, rfl, hk⟩ := h f hf
  exact ⟨.of (Cause.ofValues_of_ordinary hk), .refl m⟩

theorem mismatch {expected : String} {v : Value} (h : expected ≠ "local") :
    Works job Q (Exec.lift (Value.mismatch expected v)) :=
  fun m => ⟨.of (by simpa [Cause.ofValues, Cause.ordinary] using h), .refl m⟩

theorem push (v : Value) : Works job (fun _ => True) (push job v) := by
  intro m
  rw [wp_push]
  refine ⟨fun _ => ⟨.of rfl, .refl m⟩, fun h => ⟨trivial, rfl, ?_⟩⟩
  simp only [Array.size_push]
  omega

theorem pop : Works job (fun _ => True) pop := by
  intro m
  rw [wp_pop]
  exact ⟨fun S v hS => ⟨trivial, .of_le rfl (by simp [hS])⟩, fun _ => ⟨.of rfl, .refl m⟩⟩

theorem popMany (n : Nat) : Works job (fun _ => True) (popMany n) := by
  intro m
  rw [wp_popMany]
  exact ⟨fun _ => ⟨.of rfl, .refl m⟩, fun _ => ⟨trivial, .of_le rfl (by simp)⟩⟩

theorem cut (baseline : Nat) : Works job (fun _ => True) (cut baseline) := by
  intro m
  have less : (m.stack.shrink baseline).size ≤ m.stack.size := by
    rw [Array.size_shrink]
    exact Nat.min_le_right ..
  exact ⟨trivial, .of_le rfl less⟩

theorem popInt : Works job (fun _ => True) popInt := pop.andThen fun v => lift v.asInt_ordinary

theorem popBool : Works job (fun _ => True) popBool := pop.andThen fun v => lift v.asBool_ordinary

theorem popRow : Works job (fun _ => True) popRow := by
  refine pop.andThen fun v => ?_
  split
  · exact get.andThen fun m =>
      lift ((m.store.get_ordinary _).bind fun v => v.asRow_ordinary)
  · exact lift (Value.asRow_ordinary _)

theorem read (n : Name) : Works job (fun _ => True) (read n) :=
  get.andThen fun m => lift (m.store.get_ordinary n)

theorem allocate (v : Value) : Works job (fun _ => True) (allocate v) :=
  fun _ => ⟨trivial, .of_le rfl (Nat.le_refl _)⟩

theorem assign (n : Name) (v : Value) : Works job (fun _ => True) (assign n v) := by
  intro m
  rw [wp_assign]
  refine ⟨fun c _ => ⟨trivial, .of_le rfl (Nat.le_refl _)⟩, fun f hf => ?_⟩
  obtain ⟨k, rfl, hk⟩ := m.store.assigned_ordinary n v f hf
  exact ⟨.of (Cause.ofValues_of_ordinary hk), .refl m⟩

theorem pushUndefined (mode : ModeId) : Works job (fun _ => True) (pushUndefined job mode) :=
  ite (fun _ => pure trivial) fun _ => push _

theorem last {t : Tree} {task : Task} {x : Exec α} (hx : Works job (fun _ => True) x) :
    Works job (task.Leaves t) (do let _ ← x; return []) := hx.andThen fun _ => pure (.nothing task)

end Works

theorem conclude_works (p : Purpose) (found : List (Option Int64))
    (wanted : List (Option NodeId)) : Works job (p.Leaves wanted) (conclude job found p) := by
  have pushed (v : Value) : Works job (p.Leaves wanted) (do push job v; return []) :=
    (Works.push v).andThen fun _ => .pure .nothing
  cases p with
  | loop parts => exact .pure (.loop rfl)
  | generate target =>
    refine Works.andThen (.lift (Value.initial_ordinary _ _ _ _)) fun v => ?_
    exact (Works.allocate v).andThen fun n => pushed _
  | slice base trimmers =>
    refine Works.get.andThen fun m => ?_
    have ordinary := Value.slice_ordinary m.store base (Indexer.ofParts trimmers found)
    dsimp only
    split
    · exact pushed _
    · next f hf =>
      obtain ⟨k, rfl, hk⟩ := ordinary f hf
      exact fun m => ⟨⟨_, rfl, Cause.ofValues_of_ordinary hk, rfl, rfl⟩, .refl m⟩
  | diagonal operand => exact .pure (.diagonal rfl)
  | matrix operand column => exact .pure (.matrix rfl)

theorem gather_works (p : Purpose) (found : List (Option Int64)) {wanted all : List (Option NodeId)}
    (h : ∀ c ∈ wanted, c ∈ all) : Works job (p.Leaves all) (gather job p found wanted) := by
  induction wanted generalizing found with
  | nil => exact conclude_works p found all
  | cons unit wanted ih =>
    obtain ⟨first, later⟩ := List.forall_mem_cons.mp h
    cases unit with
    | none => exact ih _ later
    | some unit => exact .pure (.next first later)

theorem orUndefined_works (mode : ModeId) (unit : Option NodeId) :
    Works job (fun A => A = [] ∨ ∃ n ∈ unit, A = [.unit n]) (orUndefined job mode unit) := by
  cases unit with
  | some unit => exact .pure (.inr ⟨unit, rfl, rfl⟩)
  | none => exact (Works.pushUndefined mode).andThen fun _ => .pure (.inl rfl)

theorem monadic_works (op : StandardOperator) :
    Works job ((Task.monadic op).Leaves job.program.tree) (monadic job op) := by
  refine Works.pop.andThen fun v => ?_
  split
  · exact (Works.read _).andThen fun _ => (Works.push _).andThen fun _ => .pure (.monadic _)
  · exact (Works.read _).andThen fun _ => (Works.push _).andThen fun _ => .pure (.monadic _)
  · exact (Works.lift (op.monadic_ordinary v)).andThen fun _ => (Works.push _).last

theorem coerce_works {kind : CoercionKind} (hk : kind ≠ .deprocedure) {t : Tree} {task : Task}
    (node operand : NodeId) (baseline : Nat) :
    Works job (task.Leaves t) (coerce job kind node operand baseline) := by
  cases kind with
  | deprocedure => exact absurd rfl hk
  | void => exact (Works.cut baseline).last
  | dereference =>
    exact Works.pop.andThen fun v => (Works.lift v.asName_ordinary).andThen fun n =>
      (Works.read n).andThen fun _ => (Works.push _).last
  | unite =>
    refine Works.pop.andThen fun v => ?_
    split <;> exact (Works.push _).last
  | widen =>
    refine Works.pop.andThen fun v => ?_
    split
    · exact (Works.push _).last
    · exact (Works.push _).last
    · exact Works.last (.mismatch (by decide))
  | row => exact Works.pop.andThen fun v => (Works.push _).last

theorem onRow_works {f : Row Value → Checked (Row Value)} (hf : ∀ r, Ordinary (f r)) {t : Tree}
    {task : Task} :
    Works job (task.Leaves t) (do push job (.row (← lift (f (← popRow)))); return []) :=
  Works.popRow.andThen fun r => (Works.lift (hf r)).andThen fun _ => (Works.push _).last

theorem exec_works {task : Task} (h : task.onValues) :
    Works job (task.Leaves job.program.tree) (task.exec job) := by
  cases task with
  | within => exact .pure (.nothing _)
  | yields mode baseline =>
    exact Works.last <| Works.depth.andThen fun _ => .ite (fun _ => .fail rfl) fun _ => .pure trivial
  | cut baseline => exact (Works.cut baseline).last
  | branch thenPart elsePart mode =>
    refine Works.popBool.andThen fun b => .ite (fun _ => .pure (.thenPart ..)) fun _ => ?_
    refine (orUndefined_works mode elsePart).mono ?_
    rintro _ (rfl | ⟨n, hn, rfl⟩)
    · exact .nothing _
    · obtain rfl := Option.mem_def.mp hn
      exact .elsePart ..
  | choose alternatives outPart mode =>
    refine Works.popInt.andThen fun k => (orUndefined_works mode _).mono ?_
    rintro _ (rfl | ⟨n, hn, rfl⟩)
    · exact .nothing _
    · exact .alternative ((Option.or_eq_some_iff.mp hn).imp nth_mem And.right) mode
  | initialise name => exact Works.pop.andThen fun v => (Works.assign name v).last
  | assign =>
    exact Works.last <| Works.pop.andThen fun v => Works.pop.andThen fun d =>
      (Works.lift d.asName_ordinary).andThen fun n => (Works.assign n v).andThen fun _ =>
        Works.push d
  | take g =>
    exact Works.popInt.andThen fun k => (gather_works _ _ fun _ h => h).mono fun _ => .take
  | arguments args site => exact Works.pop.andThen fun v => .pure (.arguments ..)
  | dyadic op =>
    exact Works.last <| Works.pop.andThen fun v => Works.pop.andThen fun w =>
      (Works.lift (op.dyadic_ordinary _ w v)).andThen fun _ => Works.push _
  | monadic op => exact monadic_works op
  | indexers nodes =>
    exact Works.pop.andThen fun v => (gather_works _ _ fun _ h => h).mono fun _ => .indexers
  | select field =>
    exact Works.pop.andThen fun v => (Works.lift (v.field_ordinary field)).andThen fun _ =>
      (Works.push _).last
  | identity positive =>
    exact Works.last <| Works.pop.andThen fun v => Works.pop.andThen fun w =>
      (Works.lift (sameName_ordinary w v)).andThen fun _ => Works.push _
  | coerce kind node operand baseline =>
    exact coerce_works (by simpa [Task.onValues] using h) node operand baseline
  | shortCircuit right conjunction =>
    exact Works.popBool.andThen fun b => .ite (fun _ => .pure (.right ..)) fun _ =>
      (Works.push _).last
  | assert =>
    exact Works.popBool.andThen fun b => .ite (fun _ => .pure (.nothing _)) fun _ => .fail rfl
  | diagonal offset => exact onRow_works fun r => r.diagonal_ordinary offset
  | matrix index column => exact onRow_works fun r => r.asMatrix_ordinary index column
  | transpose => exact onRow_works fun r => r.transpose_ordinary
  | aggregate mode baseline =>
    refine Works.last <| .ite (fun _ => .cut _) fun _ => Works.depth.andThen fun k => ?_
    exact .ite (fun _ => .raised rfl) fun _ => (Works.popMany _).andThen fun vs =>
      (Works.lift (Value.display_ordinary _ mode vs)).andThen fun _ => Works.push _
  | _ => cases h

/-- A task that calls a procedure takes values from the stack, and then it is the call. -/
theorem wp_calls {task : Task} (h : task.calls) {m : Machine} {P : Agenda → Machine → Prop}
    {E : Signal → Machine → Prop}
    (hf : ∀ f, ∀ S : Array Value, S.size ≤ m.stack.size → E (.fault f) { m with stack := S })
    (hc : ∀ callee args site, ∀ S : Array Value, S.size ≤ m.stack.size →
      wp (callValue job callee args site) P E { m with stack := S }) :
    wp (task.exec job) P E m := by
  have same (f : Fault) : E (.fault f) m := hf f m.stack (Nat.le_refl _)
  have fewer (n : Nat) : (m.stack.shrink n).size ≤ m.stack.size := by
    rw [Array.size_shrink]
    exact Nat.min_le_right ..
  cases task with
  | call callee count site =>
    simp only [Task.exec, wp_bind, wp_popMany]
    exact ⟨fun _ => same _, fun _ => hc callee _ site _ (fewer _)⟩
  | operate slot count site =>
    simp only [Task.exec, operate, wp_bind, wp_popMany, wp_load]
    exact ⟨fun _ => same _, fun _ =>
      ⟨fun v _ => hc v _ site _ (fewer _), fun f _ => hf f _ (fewer _)⟩⟩
  | coerce kind node operand baseline =>
    cases kind with
    | deprocedure =>
      simp only [Task.exec, coerce, wp_bind, wp_pop]
      exact ⟨fun S v hS => hc v [] node S (by simp [hS]), fun _ => same _⟩
    | _ => cases h
  | _ => cases h

theorem elaborate_works {node : NodeId} (h : onValues (job.program.tree.kind node)) :
    Works job Agenda.Simple (elaborate job node) := by
  refine Works.depth.andThen fun baseline => ?_
  have gathered (p : Purpose) (wanted : List (Option NodeId)) :
      Works job Agenda.Simple (gather job p [] wanted) :=
    (gather_works p [] fun _ h => h).mono fun _ => Purpose.Leaves.simple
  have pushed {x : Exec Unit} (hx : Works job (fun _ => True) x) :
      Works job Agenda.Simple (do x; return []) :=
    hx.andThen fun _ => .pure (List.forall_mem_nil _)
  cases hk : job.program.tree.kind node with
  | closed | conditional | integerCase | conformityCase | identifier | routineText | jump =>
    simp [hk, onValues] at h
  | loop id =>
    refine (gathered _ _).bind fun A hA => .pure fun u hu => ?_
    rcases List.mem_append.mp hu with hu | hu
    · exact hA u hu
    · rw [List.mem_singleton.mp hu]
      rfl
  | collateral units =>
    refine .pure fun u hu => ?_
    simp only [List.mem_append, List.mem_map, List.mem_cons, List.not_mem_nil, or_false] at hu
    rcases hu with ⟨n, -, rfl⟩ | rfl | rfl <;> rfl
  | parallel units =>
    refine .pure fun u hu => ?_
    simp only [List.mem_append, List.mem_flatMap, List.mem_cons, List.not_mem_nil, or_false] at hu
    rcases hu with ⟨n, -, rfl | rfl⟩ | rfl <;> rfl
  | literal | standard | formatText | nihil => exact pushed (.push _)
  | skip => exact pushed (.pushUndefined _)
  | generator | diagonal | rowFunction | columnFunction => exact gathered _ _
  | formula op | monadic op =>
    refine .pure ?_
    cases op <;> simp [Agenda.Simple, applied, Task.simple]
  | modeDeclaration | call | slice | variableDeclaration | identityDeclaration | selection | cast
  | transpose | coercion | assertion | andFunction | orFunction | identityRelation | assignation =>
    exact .pure (by simp [Agenda.Simple, Task.simple])
  | _ => exact .fail rfl

end Exec

end Algol68
