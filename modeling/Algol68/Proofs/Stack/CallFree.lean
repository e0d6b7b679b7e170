import Algol68.Proofs.Scope.Values
import Algol68.Proofs.Stack.Consistency

/-! Programs that call nothing. The tasks that have to do with calls come up by the nodes that are
calls only, so that in a session of such a program none of them does, and its modes agree as soon as
those of the tree do. -/

namespace Algol68

open Exec (Gives)

variable {α β : Type} {job : Job} {units : NodeId → Prop} {A B : Agenda} {m m' : Machine}

/-- Whether evaluating a node of this kind calls no procedure. -/
def NodeKind.callFree : NodeKind → Bool
  | .call .. | .formula (.user _) .. | .monadic (.user _) _ | .coercion .deprocedure _ => false
  | _ => true

/-- Nothing in the program is a call. -/
def Program.CallFree (p : Program) : Prop := ∀ n, (p.tree.kind n).callFree

/-- Whether a task has nothing to do with a call. -/
def Task.callFree : Task → Bool
  | .arguments .. | .call .. | .operate .. | .enterRoutine .. | .endCall | .print _
  | .coerce .deprocedure .. => false
  | _ => true

def Agenda.CallFree (A : Agenda) : Prop := ∀ t ∈ A, t.callFree

namespace Agenda

@[simp] theorem callFree_nil : CallFree [] := List.forall_mem_nil _

@[simp] theorem callFree_cons {t : Task} : CallFree (t :: A) ↔ t.callFree ∧ CallFree A :=
  List.forall_mem_cons

@[simp] theorem callFree_append : CallFree (A ++ B) ↔ CallFree A ∧ CallFree B :=
  List.forall_mem_append

theorem callFree_steps (steps : List ChainStep) (baseline : Nat) :
    CallFree (steps.map (·.task baseline)) :=
  ChainStep.forall_task (P := (Task.callFree ·)) (fun _ => rfl) rfl steps

theorem callFree_units (ns : List NodeId) : CallFree (ns.map .unit) := by
  simp [CallFree, Task.callFree]

end Agenda

open Agenda

theorem Program.CallFree.of_size {p : Program} (h : ∀ k < p.tree.size, (p.tree.kind ⟨k⟩).callFree) :
    p.CallFree := by
  intro n
  by_cases hn : n.index < p.tree.size
  · exact h n.index hn
  · rw [Tree.kind_of_size_le (Nat.le_of_not_lt hn)]
    rfl

theorem Purpose.Leaves.callFree {p : Purpose} {wanted : List (Option NodeId)} (h : p.Leaves wanted A) :
    A.CallFree := by
  cases h <;> simp [Task.callFree]

theorem Task.Leaves.callFree {t : Tree} {task : Task} (ht : task.callFree) (h : task.Leaves t A) :
    A.CallFree := by
  cases h with
  | take h | indexers h => exact h.callFree
  | arguments => cases ht
  | _ => simp [Task.callFree]

namespace Exec

/-- The operation leaves no work that has to do with a call. -/
abbrev Frees (x : Exec Agenda) : Prop := Gives (fun _ => True) Agenda.CallFree x

namespace Frees

theorem any (x : Exec α) : Gives (fun _ => True) (fun _ => True) x := by
  intro m
  rw [wp]
  split <;> trivial

theorem before (x : Exec α) {f : α → Exec Agenda} (hf : ∀ a, Frees (f a)) : Frees (x >>= f) :=
  (any x).andThen hf

theorem last (x : Exec α) : Frees (do let _ ← x; return []) := before x fun _ => .pure callFree_nil

theorem fail (c : Cause) : Frees (fail c) := Gives.fail trivial

theorem mismatch (expected : String) (v : Value) : Frees (lift (Value.mismatch expected v)) :=
  fun _ => trivial

theorem of_works {Q : Agenda → Prop} {x : Exec Agenda} (hx : Works job Q x)
    (h : ∀ A, Q A → A.CallFree) : Frees x :=
  fun m => wp_mono (hx m) (fun A _ hA => h A hA.1) fun _ _ _ => trivial

end Frees

open Frees

theorem orUndefined_frees (mode : ModeId) (unit : Option NodeId) :
    Frees (orUndefined job mode unit) := by
  refine .of_works (orUndefined_works mode unit) ?_
  rintro _ (rfl | ⟨n, -, rfl⟩) <;> simp [Task.callFree]

theorem gather_frees (p : Purpose) (found : List (Option Int64)) (wanted : List (Option NodeId)) :
    Frees (gather job p found wanted) :=
  .of_works (gather_works p found fun _ h => h) fun _ h => h.callFree

theorem enclosed_frees (scope : ScopeId) {work : Agenda} (hw : work.CallFree) (mode : ModeId)
    (baseline : Nat) :
    Frees (do return (← enclosed job scope work) ++ [.yields mode baseline]) := by
  refine Gives.bind (Q := Agenda.CallFree) (before _ fun _ => .pure ?_) fun A hA => .pure ?_
  · simp [hw, Task.callFree]
  · simp [hA, Task.callFree]

theorem unit_frees (n : NodeId) : Frees (unit n) := by
  refine before _ fun _ => before _ fun m => ?_
  split
  · exact .pure (by simp [Task.callFree])
  · refine .pure ?_
    split <;> simp [Task.callFree]
  · exact .pure (by simp [Task.callFree])

theorem clause_frees (n : NodeId) (enquiry : Bool) : Frees (clause job n enquiry) := by
  have ending (p : Prop) [Decidable p] (baseline : Nat) :
      Agenda.CallFree (if p then [.cut baseline] else []) := by
    split <;> simp [Task.callFree]
  simp only [clause]
  split
  · refine before _ fun baseline => .ite (fun _ => ?_) fun _ => ?_
    · refine before _ fun c => .pure ?_
      simp only [callFree_append, callFree_cons]
      exact ⟨callFree_steps _ _, rfl, ending _ _⟩
    · exact before _ fun steps => .pure (callFree_append.mpr ⟨callFree_steps _ _, ending _ _⟩)
  · exact .pure (by simp [Task.callFree])

theorem conform_frees (alternatives : List NodeId) (outPart : Option NodeId) (mode : ModeId) :
    Frees (conform job alternatives outPart mode) := by
  refine before _ fun v => ?_
  split
  · refine before _ fun chosen => ?_
    split
    · refine before _ fun depth => .pure (callFree_append.mpr ⟨?_, by simp [Task.callFree]⟩)
      simp [CallFree, Task.callFree]
    · exact .ite (fun _ _ => trivial) fun _ => orUndefined_frees mode outPart
  · exact .fail _
  · exact .mismatch _ _

theorem iteration_callFree (i : Iteration) : (iterate.iteration i).CallFree := by
  unfold iterate.iteration
  split <;> simp [Task.callFree]

theorem iterate_frees (i : Iteration) : Frees (iterate job i) := by
  refine .ite (fun _ => before _ fun _ => before _ fun _ => .pure ?_) fun _ => .pure callFree_nil
  split
  · simp [Task.callFree]
  · exact iteration_callFree _

theorem elaborate_frees {n : NodeId} (hn : (job.program.tree.kind n).callFree) :
    Frees (elaborate job n) := by
  refine before _ fun baseline => ?_
  cases hk : job.program.tree.kind n with
  | call => simp [hk, NodeKind.callFree] at hn
  | formula op =>
    cases op with
    | standard op => exact .pure (by simp [Task.callFree, applied])
    | user slot => simp [hk, NodeKind.callFree] at hn
  | monadic op =>
    cases op with
    | standard op => exact .pure (by simp [Task.callFree, applied])
    | user slot => simp [hk, NodeKind.callFree] at hn
  | coercion kind =>
    refine .pure ?_
    cases kind <;> simp_all [NodeKind.callFree, Task.callFree]
  | closed scope | conditional scope => exact enclosed_frees scope (by simp [Task.callFree]) _ _
  | integerCase scope | conformityCase scope =>
    exact before _ fun _ => enclosed_frees scope (by simp [Task.callFree]) _ _
  | loop l =>
    exact (gather_frees _ _ _).bind fun A hA => .pure (by simp [hA, Task.callFree])
  | collateral units =>
    refine .pure (callFree_append.mpr ⟨callFree_units _, by simp [Task.callFree]⟩)
  | parallel units =>
    refine .pure (callFree_append.mpr ⟨fun t ht => ?_, by simp [Task.callFree]⟩)
    simp only [List.mem_flatMap, List.mem_cons, List.not_mem_nil, or_false] at ht
    obtain ⟨u, -, rfl | rfl⟩ := ht <;> rfl
  | identifier => exact before _ fun _ => last _
  | literal | standard | formatText | nihil | skip => exact last _
  | routineText => exact before _ fun _ => before _ fun _ => last _
  | generator | diagonal | rowFunction | columnFunction => exact gather_frees _ _ _
  | jump l =>
    refine before _ fun m => ?_
    split
    · exact .ite (fun _ _ => trivial) fun _ => Frees.fail _
    · exact .fail _
  | identityDeclaration | variableDeclaration | modeDeclaration | cast | slice | selection
  | identityRelation | andFunction | orFunction | assignation | transpose | assertion =>
    exact .pure (by simp [Task.callFree])
  | _ => exact .fail _

/-- In a program that calls nothing, a task that has nothing to do with a call leaves only such
tasks. -/
theorem exec_frees (hp : job.program.CallFree) {t : Task} (ht : t.callFree) : Frees (t.exec job) := by
  by_cases hv : t.onValues
  · exact .of_works (exec_works hv) fun _ h => h.callFree ht
  cases t with
  | unit n => exact unit_frees n
  | elaborate n => exact elaborate_frees (hp n)
  | clause n enquiry => exact clause_frees n enquiry
  | settle | leave | labelled | store => exact last _
  | bind slot => exact before _ fun _ => last _
  | conform alternatives outPart mode => exact conform_frees alternatives outPart mode
  | declare slot init =>
    refine before _ fun _ => before _ fun _ => before _ fun _ => ?_
    cases init <;> exact .pure (by simp [Task.callFree])
  | enterLoop i | enterBody i => exact before _ fun _ => .pure (by simp [Task.callFree])
  | iterate i => exact iterate_frees i
  | afterWhile i =>
    refine before _ fun b => .pure ?_
    split
    · exact iteration_callFree i
    · exact callFree_nil
  | afterUntil i =>
    refine before _ fun b => .pure ?_
    split <;> simp [Task.callFree]
  | advance i =>
    refine .ite (fun _ => ?_) fun _ => .pure (by simp [Task.callFree])
    split
    · exact .pure (by simp [Task.callFree])
    · exact Frees.fail _
  | arguments | call | operate | enterRoutine | endCall | print => cases ht
  | coerce kind =>
    cases kind with
    | deprocedure => cases ht
    | _ => exact absurd rfl hv
  | _ => exact absurd rfl hv

end Exec

namespace Program.CallFree

theorem does (hp : job.program.CallFree) (hA : A.CallFree) (h : Does job (A, m) (B, m')) :
    B.CallFree := by
  cases h with
  | done he =>
    rw [callFree_cons] at hA
    exact callFree_append.mpr ⟨Exec.wp_ok (Exec.exec_frees hp hA.1 _) he, hA.2⟩
  | resumed he hx =>
    obtain ⟨j, before, c, after, work, -, rfl, -, -, resumed, rfl, -⟩ := unwind_resumed hx
    simp only [callFree_cons, callFree_append] at hA
    have work_free : work.CallFree :=
      c.forall_resume (P := (Task.callFree ·)) resumed (fun _ => rfl) rfl rfl
    exact callFree_append.mpr ⟨work_free, hA.2.2.2⟩

/-- Nothing is ever called. -/
theorem underway (hp : job.program.CallFree) (h : Underway job units A m) : A.CallFree := by
  induction h with
  | run | resume => simp [Task.callFree]
  | step h hs ih => exact hp.does ih hs

theorem voidConsistent (hp : job.program.CallFree) (ht : job.program.tree.VoidConsistent) :
    job.VoidConsistent units := by
  refine ⟨ht, fun t rest m h callee site hc => ?_⟩
  have free := hp.underway h t List.mem_cons_self
  cases t with
  | call | operate => cases free
  | coerce kind =>
    cases kind with
    | deprocedure => cases free
    | _ => cases hc
  | _ => cases hc

end Program.CallFree

end Algol68
