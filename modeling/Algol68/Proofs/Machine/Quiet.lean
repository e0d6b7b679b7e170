import Algol68.Machine.Run
import Algol68.Proofs.Machine.Work

/-! What tasks leave alone. The transput is written by the tasks of a print call and by calls of the
standard procedures, and by nothing else; and no task makes the expression stack higher than its
limit. -/

namespace Algol68

/-- The values that a print call still has to print when it is at this task. -/
def Task.printing? : Task → Option (List Value)
  | .print values => some values
  | _ => none

/-- No print call is left on the agenda. -/
def Agenda.Mute (A : Agenda) : Prop := ∀ t ∈ A, t.printing? = none

/-- The stack grew no higher than its limit. -/
def Machine.KeepsRoom (job : Job) (m m' : Machine) : Prop :=
  m'.stack.size ≤ max m.stack.size job.config.stackLimit

/-- Nothing was printed either. -/
structure Machine.Quiet (job : Job) (m m' : Machine) : Prop where
  transput : m'.transput = m.transput
  room : m.KeepsRoom job m'

namespace Agenda

variable {A B : Agenda} {t : Task}

@[simp] theorem mute_nil : Mute [] := List.forall_mem_nil _

@[simp] theorem mute_cons : Mute (t :: A) ↔ t.printing? = none ∧ Mute A := List.forall_mem_cons

@[simp] theorem mute_append : Mute (A ++ B) ↔ Mute A ∧ Mute B := List.forall_mem_append

theorem mute_steps (steps : List ChainStep) (baseline : Nat) :
    Mute (steps.map (·.task baseline)) :=
  ChainStep.forall_task (P := fun t => t.printing? = none) (fun _ => rfl) rfl steps

theorem Simple.mute (h : A.Simple) : A.Mute := by
  intro t ht
  have := h t ht
  cases t <;> first | rfl | cases this

end Agenda

open Agenda

namespace Machine

variable {job : Job} {m m₁ m₂ : Machine}

theorem KeepsRoom.of_le (h : m₁.stack.size ≤ m.stack.size) : m.KeepsRoom job m₁ :=
  Nat.le_trans h (Nat.le_max_left ..)

theorem KeepsRoom.trans (h : m.KeepsRoom job m₁) (h' : m₁.KeepsRoom job m₂) :
    m.KeepsRoom job m₂ := by
  unfold KeepsRoom at *
  omega

theorem Quiet.of_le (ht : m₁.transput = m.transput) (hs : m₁.stack.size ≤ m.stack.size) :
    m.Quiet job m₁ := ⟨ht, .of_le hs⟩

theorem Quiet.refl (m : Machine) : m.Quiet job m := .of_le rfl (Nat.le_refl _)

theorem Quiet.trans (h : m.Quiet job m₁) (h' : m₁.Quiet job m₂) : m.Quiet job m₂ :=
  ⟨h'.transput.trans h.transput, h.room.trans h'.room⟩

theorem Worked.quiet (h : m.Worked job m₁) : m.Quiet job m₁ :=
  ⟨h.transput, h.room⟩

end Machine

namespace Exec

variable {α β : Type} {Q : α → Prop} {R : β → Prop} {job : Job}

/-- The operation prints nothing, keeps to the limit of the stack, and gives results with a
property. -/
def Hushed (job : Job) (Q : α → Prop) (x : Exec α) : Prop :=
  ∀ m, wp x (fun a m' => Q a ∧ m.Quiet job m') (fun _ m' => m.Quiet job m') m

/-- The operation prints nothing and leaves nothing to print. -/
abbrev Hushes (job : Job) (x : Exec Agenda) : Prop := Hushed job Agenda.Mute x

namespace Hushed

theorem pure {a : α} (h : Q a) : Hushed job Q (pure a) := fun m => ⟨h, .refl m⟩

theorem bind {x : Exec α} {f : α → Exec β} (hx : Hushed job Q x)
    (hf : ∀ a, Q a → Hushed job R (f a)) : Hushed job R (x >>= f) := by
  intro m
  rw [wp_bind]
  refine wp_mono (hx m) (fun a m₁ ha => ?_) fun _ _ h => h
  exact wp_mono (hf a ha.1 m₁) (fun _ _ h => ⟨h.1, ha.2.trans h.2⟩) fun _ _ h => ha.2.trans h

theorem andThen {x : Exec α} {f : α → Exec β} (hx : Hushed job (fun _ => True) x)
    (hf : ∀ a, Hushed job R (f a)) : Hushed job R (x >>= f) := hx.bind fun a _ => hf a

theorem ite {p : Prop} [Decidable p] {x y : Exec α} (hx : p → Hushed job Q x)
    (hy : ¬ p → Hushed job Q y) : Hushed job Q (if p then x else y) := by
  split
  · next h => exact hx h
  · next h => exact hy h

theorem throw (s : Signal) : Hushed job Q (throw s) := fun m => .refl m

theorem fail (c : Cause) : Hushed job Q (Exec.fail c) := fun m => .refl m

/-- What would follow a fault is not done. -/
theorem raised {c : Cause} {f : α → Exec β} : Hushed job R (Exec.fail c >>= f) :=
  fun m => .refl m

theorem get : Hushed job (fun _ => True) get := fun m => ⟨trivial, .refl m⟩

theorem depth : Hushed job (fun _ => True) depth := fun m => ⟨trivial, .refl m⟩

theorem modify {f : Machine → Machine} (ht : ∀ m, (f m).transput = m.transput)
    (hs : ∀ m, (f m).stack = m.stack) : Hushed job (fun _ => True) (modify f) :=
  fun m => ⟨trivial, .of_le (ht m) (Nat.le_of_eq (congrArg Array.size (hs m)))⟩

theorem lift (c : Checked α) : Hushed job (fun _ => True) (lift c) := by
  intro m
  rw [wp_lift]
  exact ⟨fun _ _ => ⟨trivial, .refl m⟩, fun _ _ => .refl m⟩

theorem of_works {x : Exec α} (hx : Works job Q x) : Hushed job Q x := fun m =>
  wp_mono (hx m) (fun _ _ h => ⟨h.1, h.2.quiet⟩) fun _ _ h => h.2.quiet

theorem mismatch {expected : String} {v : Value} :
    Hushed job Q (Exec.lift (Value.mismatch expected v)) := fun m => .refl m

theorem push (v : Value) : Hushed job (fun _ => True) (push job v) := of_works (.push v)

theorem pop : Hushed job (fun _ => True) pop := of_works .pop

theorem popBool : Hushed job (fun _ => True) popBool := of_works .popBool

theorem load (slot : Slot) : Hushed job (fun _ => True) (load slot) := get.andThen fun _ => lift _

theorem store (slot : Slot) (v : Value) : Hushed job (fun _ => True) (store slot v) :=
  get.andThen fun _ => (lift _).andThen fun _ => modify (fun _ => rfl) fun _ => rfl

theorem enterAt (scope : ScopeId) (link : Nat) :
    Hushed job (fun _ => True) (enterAt job scope link) :=
  get.andThen fun _ => (lift _).andThen fun _ => get.andThen fun m =>
    Hushed.andThen (modify (fun _ => rfl) fun _ => rfl) fun _ => pure (a := m.frames.depth) trivial

theorem enter (scope : ScopeId) : Hushed job (fun _ => True) (enter job scope) :=
  get.andThen fun _ => (lift _).andThen fun link => enterAt scope link

theorem annotate (f : Annotations → Annotations) : Hushed job (fun _ => True) (annotate f) :=
  modify (fun _ => rfl) fun _ => rfl

theorem count (f : Counters → Counters) : Hushed job (fun _ => True) (count f) :=
  modify (fun _ => rfl) fun _ => rfl

theorem last {x : Exec α} (hx : Hushed job (fun _ => True) x) :
    Hushes job (do let _ ← x; return []) := hx.andThen fun _ => pure mute_nil

end Hushed

theorem enclosed_hushes (scope : ScopeId) {work : Agenda} (hw : work.Mute) (mode : ModeId)
    (baseline : Nat) : Hushes job (do return (← enclosed job scope work) ++ [.yields mode baseline]) := by
  refine Hushed.bind (Q := Agenda.Mute) ?_ fun A hA => .pure ?_
  · refine (Hushed.enter scope).andThen fun before => .pure ?_
    simp [hw, Task.printing?]
  · simp [hA, Task.printing?]

theorem orUndefined_hushes (mode : ModeId) (unit : Option NodeId) :
    Hushes job (orUndefined job mode unit) := by
  refine .of_works ((orUndefined_works mode unit).mono ?_)
  rintro _ (rfl | ⟨n, -, rfl⟩) <;> simp [Task.printing?]

/-- A call of anything but a standard procedure prints nothing. -/
theorem callValue_hushes {callee : Value} (h : ∀ p, callee ≠ .procedure (.standard p))
    (args : List Value) (site : NodeId) : Hushes job (callValue job callee args site) := by
  unfold callValue
  split
  · next p => exact absurd rfl (h p)
  · next text environ =>
    refine Hushed.get.andThen fun m => .ite (fun _ => .raised) fun _ => ?_
    split
    · exact (Hushed.count _).andThen fun _ =>
        Hushed.andThen (.modify (fun _ => rfl) fun _ => rfl) fun _ =>
          .pure (by simp [Task.printing?])
    · exact .fail _
  · exact .fail _
  · exact .fail _
  · exact .mismatch

theorem iteration_mute (i : Iteration) : (iterate.iteration i).Mute := by
  unfold iterate.iteration
  split <;> simp [Task.printing?]

theorem iterate_hushes (i : Iteration) : Hushes job (iterate job i) := by
  refine .ite (fun _ => ?_) fun _ => .pure mute_nil
  have counted : Hushed job (fun _ => True) (setCounter i) := by
    unfold setCounter
    split
    · exact .store _ _
    · exact .pure trivial
  have renewed : Hushed job (fun _ => True) (renewBody job i) :=
    .ite (fun _ => .pure trivial) fun _ => .modify (fun _ => rfl) fun _ => rfl
  refine counted.andThen fun _ => renewed.andThen fun _ => .pure ?_
  split
  · simp [Task.printing?]
  · exact iteration_mute _

theorem conform_hushes (units : List NodeId) (outPart : Option NodeId) (mode : ModeId) :
    Hushes job (conform job units outPart mode) := by
  refine Hushed.pop.andThen fun v => ?_
  split
  · refine (Hushed.lift _).andThen fun chosen => ?_
    split
    · refine (Hushed.enter _).andThen fun before => .pure ?_
      have stores (slots : List Slot) (v : Value) : Agenda.Mute (slots.map (Task.store · v)) := by
        simp [Mute, Task.printing?]
      rw [mute_append]
      exact ⟨stores _ _, by simp [Task.printing?]⟩
    · exact .ite (fun _ => .raised) fun _ => orUndefined_hushes mode outPart
  · exact .fail _
  · exact .mismatch

theorem jump_hushes (id : LabelId) : Hushes job (elaborate.jump job id) := by
  refine Hushed.get.andThen fun m => ?_
  split
  · exact .ite (fun _ => .throw _) fun _ => .fail _
  · exact .fail _

theorem linearChain_hushed (serial : NodeId) (items : List NodeId) :
    Hushed job (fun _ => True) (linearChain job serial items) := by
  refine Hushed.get.andThen fun m => ?_
  split
  · exact (Hushed.count _).andThen fun _ => .pure trivial
  · exact (Hushed.annotate _).andThen fun _ => (Hushed.count _).andThen fun _ =>
      (Hushed.annotate _).andThen fun _ => .pure trivial

theorem alternatives_hushed (node : NodeId) (items : List NodeId) :
    Hushed job (fun _ => True) (alternatives job node items) := by
  refine Hushed.get.andThen fun m => ?_
  split
  · exact .pure trivial
  · exact (Hushed.annotate _).andThen fun _ => (Hushed.annotate _).andThen fun _ => .pure trivial

theorem clause_hushes (node : NodeId) (enquiry : Bool) : Hushes job (clause job node enquiry) := by
  have ending (p : Prop) [Decidable p] (baseline : Nat) :
      Agenda.Mute (if p then [.cut baseline] else []) := by
    split <;> simp [Task.printing?]
  simp only [clause]
  split
  · refine Hushed.depth.andThen fun baseline => .ite (fun _ => ?_) fun _ => ?_
    · have announced (items : List NodeId) :
          Hushed job (fun _ => True) (announce node items baseline) :=
        Hushed.get.andThen fun m => (Hushed.lift _).andThen fun _ => (Hushed.lift _).andThen fun _ =>
          Hushed.andThen (.modify (fun _ => rfl) fun _ => rfl) fun _ => .pure trivial
      refine (announced _).andThen fun c => .pure ?_
      simp only [mute_append, mute_cons]
      exact ⟨mute_steps _ _, rfl, ending _ _⟩
    · exact (linearChain_hushed _ _).andThen fun steps =>
        .pure (mute_append.mpr ⟨mute_steps steps baseline, ending _ _⟩)
  · exact .pure (by simp [Task.printing?])

theorem unit_hushes (node : NodeId) : Hushes job (Exec.unit node) := by
  refine (Hushed.count _).andThen fun _ => Hushed.get.andThen fun m => ?_
  split
  · exact .pure (by simp [Task.printing?])
  · exact .pure (by split <;> simp [Task.printing?])
  · exact .pure (by simp [Task.printing?])

theorem elaborate_hushes (node : NodeId) : Hushes job (elaborate job node) := by
  by_cases hv : onValues (job.program.tree.kind node)
  · exact .of_works ((elaborate_works hv).mono fun _ => Simple.mute)
  have hushes {x : Nat → Exec Agenda} (hx : ∀ baseline, Hushes job (x baseline)) :
      Hushes job (do let baseline ← depth; x baseline) := Hushed.depth.andThen hx
  cases hk : job.program.tree.kind node with
  | closed scope | conditional scope =>
    simp only [elaborate, hk]
    exact hushes fun baseline => enclosed_hushes scope (by simp [Task.printing?]) _ _
  | integerCase scope | conformityCase scope =>
    simp only [elaborate, hk]
    exact hushes fun baseline => (alternatives_hushed _ _).andThen fun units =>
      enclosed_hushes scope (by simp [Task.printing?]) _ _
  | identifier slot =>
    simp only [elaborate, hk]
    exact hushes fun baseline => (Hushed.load slot).andThen fun v => (Hushed.push v).last
  | routineText scope params body =>
    simp only [elaborate, hk]
    exact hushes fun baseline => Hushed.get.andThen fun m => (Hushed.lift _).andThen fun e =>
      (Hushed.push _).last
  | jump label =>
    simp only [elaborate, hk]
    exact hushes fun baseline => jump_hushes label
  | _ => simp [hk, onValues] at hv

end Exec

namespace Exec

variable {job : Job}

/-- A task that neither prints nor calls a procedure prints nothing and leaves nothing to print. -/
theorem exec_hushes {t : Task} (hp : t.printing? = none) (hc : t.calls = false) :
    Hushes job (t.exec job) := by
  by_cases hv : t.onValues
  · exact .of_works ((exec_works hv).mono fun _ h => h.simple.mute)
  cases t with
  | print => cases hp
  | call | operate => cases hc
  | coerce kind node operand baseline =>
    cases kind with
    | deprocedure => cases hc
    | _ => exact absurd rfl hv
  | unit n => exact unit_hushes n
  | settle n => exact (Hushed.annotate _).last
  | clause n enquiry => exact clause_hushes n enquiry
  | elaborate n => exact elaborate_hushes n
  | leave | labelled | endCall => exact Hushed.last (.modify (fun _ => rfl) fun _ => rfl)
  | conform alternatives outPart mode => exact conform_hushes alternatives outPart mode
  | store slot v => exact (Hushed.store slot v).last
  | bind slot => exact Hushed.pop.andThen fun v => (Hushed.store slot v).last
  | declare slot init =>
    refine Hushed.pop.andThen fun v => (Hushed.lift _).andThen fun name =>
      (Hushed.store slot v).andThen fun _ => ?_
    cases init <;> exact .pure (by simp [Task.printing?])
  | enterLoop i | enterBody i =>
    exact (Hushed.enter _).andThen fun before => .pure (by simp [Task.printing?])
  | iterate i => exact iterate_hushes i
  | afterWhile i =>
    refine Hushed.popBool.andThen fun b => .pure ?_
    split
    · exact iteration_mute i
    · exact mute_nil
  | afterUntil i =>
    refine Hushed.popBool.andThen fun b => .pure ?_
    split <;> simp [Task.printing?]
  | advance i =>
    refine .ite (fun _ => ?_) fun _ => .pure (by simp [Task.printing?])
    split
    · exact .pure (by simp [Task.printing?])
    · exact .fail _
  | enterRoutine scope environ args body =>
    exact (Hushed.enterAt scope environ).andThen fun before =>
      Hushed.andThen (.modify (fun _ => rfl) fun _ => rfl) fun _ => .pure (by simp [Task.printing?])
  | _ => exact absurd rfl hv

end Exec

end Algol68
