import Algol68.Machine.Run
import Algol68.Proofs.Machine.Work

/-! What the machine knows about nodes is written by few tasks. All others are done by rote: they leave the
annotations alone and find no chains. No task ends an evaluation that it did not begin, and no task
knows where it stands in the source: a fault is raised without a position. -/

namespace Algol68

/-- What the machine has learnt about the nodes of a program, and how often it found a chain. -/
def Machine.learnt (m : Machine) : Annotations × Option Nat :=
  (m.annotations, m.counters.map Counters.linearizations)

/-- A signal that has not left any unit. -/
def Signal.Fresh : Signal → Prop
  | .fault f => f.span = none ∧ f.trace = none
  | .jump _ => True

/-- The unit whose evaluation a task ends. -/
def Task.ends : Task → Option NodeId
  | .settle n | .within n => some n
  | _ => none

/-- The units whose evaluations end on an agenda, the innermost first. -/
def Agenda.active (A : Agenda) : List NodeId := A.filterMap Task.ends

namespace Agenda

variable {A B : Agenda} {t : Task}

@[simp] theorem active_nil : active [] = [] := rfl

theorem active_cons_of_none (h : t.ends = none) : active (t :: A) = active A :=
  List.filterMap_cons_none h

theorem active_cons_of_some {n : NodeId} (h : t.ends = some n) :
    active (t :: A) = n :: active A := List.filterMap_cons_some h

@[simp] theorem active_append : active (A ++ B) = active A ++ active B := List.filterMap_append

theorem active_eq_nil_iff : active A = [] ↔ ∀ t ∈ A, t.ends = none := List.filterMap_eq_nil_iff

theorem active_steps (steps : List ChainStep) (baseline : Nat) :
    active (steps.map (·.task baseline)) = [] := by
  rw [active_eq_nil_iff]
  exact ChainStep.forall_task (P := fun t => t.ends = none) (fun _ => rfl) rfl steps

theorem Simple.active (h : A.Simple) : A.active = [] := by
  rw [active_eq_nil_iff]
  intro t ht
  have := h t ht
  cases t <;> first | rfl | cases this

end Agenda

open Agenda

/-- A fault of this operation has no position. -/
def Unplaced {α : Type} (c : Checked α) : Prop := ∀ f, c = .error f → f.span = none ∧ f.trace = none

namespace Unplaced

variable {α β : Type}

theorem ok (a : α) : Unplaced (.ok a : Checked α) := fun _ h => nomatch h

theorem fault (c : Cause) : Unplaced (fault c : Checked α) := by
  rintro f ⟨⟩
  exact ⟨rfl, rfl⟩

theorem bind {x : Checked α} {f : α → Checked β} (hx : Unplaced x) (hf : ∀ a, Unplaced (f a)) :
    Unplaced (x >>= f) := by
  cases x with
  | error e => exact fun g h => hx g (congrArg Except.error (Except.error.inj h))
  | ok a => exact hf a

end Unplaced

theorem Ordinary.unplaced {α : Type} {c : Checked α} (h : Ordinary c) : Unplaced c := by
  intro f hf
  obtain ⟨k, rfl, -⟩ := h f hf
  exact ⟨rfl, rfl⟩

namespace FrameStack

variable (s : FrameStack)

theorem top_unplaced : Unplaced s.top := by
  unfold top
  split
  · exact .fault _
  · exact .ok _

theorem checkRoom_unplaced (limit : Option Nat) : Unplaced (s.checkRoom limit) := by
  unfold checkRoom
  split
  · exact .fault _
  · exact .ok _

theorem handle_unplaced (i : Nat) : Unplaced (s.handle i) := by
  unfold handle
  split
  · exact .ok _
  · exact .fault _

theorem resolveFrom_unplaced (level links i : Nat) : Unplaced (s.resolveFrom level links i) := by
  fun_induction resolveFrom s level links i with
  | case3 => exact .ok _
  | case4 _ _ _ _ _ _ _ _ ih => exact ih
  | _ => exact .fault _

theorem resolve_unplaced (level : Nat) : Unplaced (s.resolve level) :=
  s.top_unplaced.bind fun _ => s.resolveFrom_unplaced _ _ _

theorem holder_unplaced (slot : Slot) (v : Value) : Unplaced (s.holder slot v) := by
  refine (s.resolve_unplaced _).bind fun i => ?_
  split
  · exact .ok _
  · exact .fault _

theorem load_unplaced (slot : Slot) : Unplaced (s.load slot) :=
  (s.holder_unplaced _ _).bind fun _ => .ok _

end FrameStack

namespace Exec

variable {α β : Type} {Q : α → Prop} {R : β → Prop} {job : Job}

theorem accepting_unplaced (variant : ModeId) (ns : List NodeId) :
    Unplaced (accepting job variant ns) := by
  induction ns with
  | nil => exact .ok _
  | cons n ns ih =>
    unfold accepting
    split
    · dsimp only
      split
      · exact .ok _
      · exact ih
    · exact .fault _

/-- The operation gives results with a property, learns nothing, and raises its faults without a
position. -/
def Rote (Q : α → Prop) (x : Exec α) : Prop :=
  ∀ m, wp x (fun a m' => Q a ∧ m'.learnt = m.learnt) (fun s m' => s.Fresh ∧ m'.learnt = m.learnt) m

/-- The operation learns nothing and leaves work in which no evaluation ends. -/
abbrev Dull (x : Exec Agenda) : Prop := Rote (fun work => work.active = []) x

namespace Rote

theorem pure {a : α} (h : Q a) : Rote Q (pure a) := fun _ => ⟨h, rfl⟩

theorem bind {x : Exec α} {f : α → Exec β} (hx : Rote Q x)
    (hf : ∀ a, Q a → Rote R (f a)) : Rote R (x >>= f) := by
  intro m
  rw [wp_bind]
  refine wp_mono (hx m) (fun a m₁ ha => ?_) fun _ _ h => h
  rw [← ha.2]
  exact hf a ha.1 m₁

theorem andThen {x : Exec α} {f : α → Exec β} (hx : Rote (fun _ => True) x)
    (hf : ∀ a, Rote R (f a)) : Rote R (x >>= f) := hx.bind fun a _ => hf a

theorem ite {p : Prop} [Decidable p] {x y : Exec α} (hx : p → Rote Q x)
    (hy : ¬ p → Rote Q y) : Rote Q (if p then x else y) := by
  split
  · next h => exact hx h
  · next h => exact hy h

theorem fail (c : Cause) : Rote Q (Exec.fail c) := fun _ => ⟨⟨rfl, rfl⟩, rfl⟩

/-- What would follow a fault is not done. -/
theorem raised {c : Cause} {f : α → Exec β} : Rote R (Exec.fail c >>= f) :=
  fun _ => ⟨⟨rfl, rfl⟩, rfl⟩

theorem get : Rote (fun _ => True) get := fun _ => ⟨trivial, rfl⟩

theorem depth : Rote (fun _ => True) depth := fun _ => ⟨trivial, rfl⟩

theorem modify {f : Machine → Machine} (h : ∀ m, (f m).learnt = m.learnt) :
    Rote (fun _ => True) (modify f) := fun m => ⟨trivial, h m⟩

theorem count {f : Counters → Counters} (h : ∀ c, (f c).linearizations = c.linearizations) :
    Rote (fun _ => True) (count f) := by
  refine modify fun m => ?_
  have same : Counters.linearizations ∘ f = Counters.linearizations := funext h
  simp only [Machine.learnt, Option.map_map, same]

theorem lift {c : Checked α} (h : Unplaced c) : Rote (fun _ => True) (lift c) := by
  intro m
  rw [wp_lift]
  exact ⟨fun _ _ => ⟨trivial, rfl⟩, fun f hf => ⟨h f hf, rfl⟩⟩

theorem mismatch {expected : String} {v : Value} :
    Rote Q (Exec.lift (Value.mismatch expected v)) := fun _ => ⟨⟨rfl, rfl⟩, rfl⟩

theorem of_works {x : Exec α} (hx : Works job Q x) : Rote Q x := by
  have learnt {m m' : Machine} (h : m.Worked job m') : m'.learnt = m.learnt := by
    rw [Machine.learnt, h.annotations, h.counters, Machine.learnt]
  intro m
  refine wp_mono (hx m) (fun _ _ h => ⟨h.1, learnt h.2⟩) fun s _ h => ⟨?_, learnt h.2⟩
  obtain ⟨f, rfl, -, hf⟩ := h.1
  exact hf

theorem push (job : Job) (v : Value) : Rote (fun _ => True) (push job v) := of_works (.push v)

theorem pop : Rote (fun _ => True) pop := by
  intro m
  rw [wp_pop]
  exact ⟨fun _ _ _ => ⟨trivial, rfl⟩, fun _ => ⟨⟨rfl, rfl⟩, rfl⟩⟩

theorem popMany (n : Nat) : Rote (fun _ => True) (popMany n) := by
  intro m
  rw [wp_popMany]
  exact ⟨fun _ => ⟨⟨rfl, rfl⟩, rfl⟩, fun _ => ⟨trivial, rfl⟩⟩

theorem popBool : Rote (fun _ => True) popBool :=
  pop.andThen fun v => lift v.asBool_ordinary.unplaced

theorem read (n : Name) : Rote (fun _ => True) (read n) :=
  get.andThen fun m => lift (m.store.get_ordinary n).unplaced

theorem load (slot : Slot) : Rote (fun _ => True) (load slot) :=
  get.andThen fun m => lift (m.frames.load_unplaced slot)

theorem store (slot : Slot) (v : Value) : Rote (fun _ => True) (store slot v) :=
  get.andThen fun m => (lift (m.frames.holder_unplaced slot v)).andThen fun _ => modify fun _ => rfl

theorem enterAt (job : Job) (scope : ScopeId) (link : Nat) :
    Rote (fun _ => True) (enterAt job scope link) :=
  get.andThen fun m => (lift (m.frames.checkRoom_unplaced _)).andThen fun _ => get.andThen fun m =>
    Rote.andThen (modify fun _ => rfl) fun _ => pure (a := m.frames.depth) trivial

theorem enter (job : Job) (scope : ScopeId) : Rote (fun _ => True) (enter job scope) :=
  get.andThen fun m => (lift m.frames.top_unplaced).andThen fun link => enterAt job scope link

theorem dull {x : Exec α} (hx : Rote (fun _ => True) x) : Dull (do let _ ← x; return []) :=
  hx.andThen fun _ => pure active_nil

end Rote

theorem enclosed_dull (scope : ScopeId) {work : Agenda} (hw : work.active = []) (mode : ModeId)
    (baseline : Nat) : Dull (do return (← enclosed job scope work) ++ [.yields mode baseline]) := by
  refine Rote.bind (Q := fun work => work.active = []) ?_ fun A hA => .pure ?_
  · refine (Rote.enter job scope).andThen fun before => .pure ?_
    rw [active_append, hw]
    rfl
  · rw [active_append, hA]
    rfl

theorem orUndefined_dull (mode : ModeId) (unit : Option NodeId) :
    Dull (orUndefined job mode unit) := by
  refine .of_works ((orUndefined_works mode unit).mono ?_)
  rintro _ (rfl | ⟨n, -, rfl⟩) <;> rfl

theorem print_dull (values : List Value) : Dull (print job values) := by
  have emitted (f : Transput → Transput) (values : List Value) :
      Dull (do transput f; return [.print values]) :=
    (Rote.modify fun _ => rfl).andThen fun _ => .pure rfl
  unfold print
  split
  · exact .pure rfl
  · split
    · exact .pure rfl
    · exact .pure rfl
    · exact .pure rfl
    · exact (Rote.read _).andThen fun _ => .pure rfl
    · exact emitted _ _
    · exact .pure rfl
    · exact Rote.mismatch
    · exact .fail _
    all_goals exact emitted _ _

theorem callValue_dull (callee : Value) (args : List Value) (site : NodeId) :
    Dull (callValue job callee args site) := by
  unfold callValue
  split
  · next p =>
    cases p with
    | print => exact .pure rfl
    | newline => exact (Rote.modify fun _ => rfl).dull
  · next text environ =>
    refine Rote.get.andThen fun m => .ite (fun _ => .raised) fun _ => ?_
    split
    · refine (Rote.count fun _ => ?_).andThen fun _ => (Rote.modify fun _ => ?_).andThen fun _ =>
        .pure ?_
      all_goals rfl
    · exact .fail _
  · exact .fail _
  · exact .fail _
  · exact Rote.mismatch

theorem iteration_active (i : Iteration) : (iterate.iteration i).active = [] := by
  unfold iterate.iteration
  split <;> rfl

theorem iterate_dull (i : Iteration) : Dull (iterate job i) := by
  refine .ite (fun _ => ?_) fun _ => .pure rfl
  have counted : Rote (fun _ => True) (setCounter i) := by
    unfold setCounter
    split
    · exact Rote.store _ _
    · exact .pure trivial
  have renewed : Rote (fun _ => True) (renewBody job i) :=
    .ite (fun _ => .pure trivial) fun _ => Rote.modify fun _ => rfl
  refine counted.andThen fun _ => renewed.andThen fun _ => .pure ?_
  split
  · rfl
  · exact iteration_active _

theorem conform_dull (units : List NodeId) (outPart : Option NodeId) (mode : ModeId) :
    Dull (conform job units outPart mode) := by
  refine Rote.pop.andThen fun v => ?_
  split
  · refine (Rote.lift (accepting_unplaced _ _)).andThen fun chosen => ?_
    split
    · refine (Rote.enter job _).andThen fun before => .pure ?_
      rw [active_append, active_eq_nil_iff.mpr]
      · rfl
      · intro t ht
        obtain ⟨slot, -, rfl⟩ := List.mem_map.mp ht
        rfl
    · exact .ite (fun _ => .raised) fun _ => orUndefined_dull mode outPart
  · exact .fail _
  · exact Rote.mismatch

theorem jump_dull (id : LabelId) : Dull (elaborate.jump job id) := by
  refine Rote.get.andThen fun m => ?_
  split
  · exact .ite (fun _ _ => ⟨trivial, rfl⟩) fun _ => .fail _
  · exact .fail _

end Exec

/-- Whether a node is a clause that chooses among alternatives, which are found on the first visit. -/
def NodeKind.isCase : NodeKind → Bool
  | .integerCase .. | .conformityCase .. => true
  | _ => false

namespace Exec

variable {job : Job}

theorem elaborate_dull {node : NodeId} (h : (job.program.tree.kind node).isCase = false) :
    Dull (elaborate job node) := by
  by_cases hv : onValues (job.program.tree.kind node)
  · exact .of_works ((elaborate_works hv).mono fun _ => Simple.active)
  have dull {x : Nat → Exec Agenda} (hx : ∀ baseline, Dull (x baseline)) :
      Dull (do let baseline ← depth; x baseline) := Rote.depth.andThen hx
  cases hk : job.program.tree.kind node with
  | integerCase | conformityCase =>
    rw [hk] at h
    cases h
  | closed scope | conditional scope =>
    simp only [elaborate, hk]
    exact dull fun baseline => enclosed_dull scope rfl _ _
  | identifier slot =>
    simp only [elaborate, hk]
    exact dull fun baseline => (Rote.load slot).andThen fun v => (Rote.push job v).dull
  | routineText scope params body =>
    simp only [elaborate, hk]
    refine dull fun baseline => Rote.get.andThen fun m => ?_
    have environ := (m.frames.resolve_unplaced (job.program.environLevel node)).bind fun i =>
      m.frames.handle_unplaced i
    exact (Rote.lift environ).andThen fun e => (Rote.push job _).dull
  | jump label =>
    simp only [elaborate, hk]
    exact dull fun baseline => jump_dull label
  | _ => simp [hk, onValues] at hv

end Exec

/-- Whether a task may write what the machine knows about a node, or ends an evaluation. -/
def Task.learns (p : Program) : Task → Bool
  | .unit _ | .settle _ | .clause .. => true
  | .elaborate n => (p.tree.kind n).isCase
  | _ => false

namespace Exec

variable {job : Job}

theorem exec_dull {t : Task} (h : t.learns job.program = false) : Dull (t.exec job) := by
  by_cases hv : t.onValues
  · exact .of_works ((exec_works hv).mono fun _ h => h.simple.active)
  cases t with
  | unit | settle | clause => cases h
  | elaborate n => exact elaborate_dull h
  | leave | labelled | endCall => exact (Rote.modify fun _ => rfl).dull
  | conform alternatives outPart mode => exact conform_dull alternatives outPart mode
  | store slot v => exact (Rote.store slot v).dull
  | bind slot => exact Rote.pop.andThen fun v => (Rote.store slot v).dull
  | declare slot init =>
    refine Rote.pop.andThen fun v => (Rote.lift v.asName_ordinary.unplaced).andThen fun name =>
      (Rote.store slot v).andThen fun _ => ?_
    cases init with
    | none => exact .pure rfl
    | some unit => exact .pure rfl
  | enterLoop i | enterBody i => exact (Rote.enter job _).andThen fun before => .pure rfl
  | iterate i => exact iterate_dull i
  | afterWhile i =>
    refine Rote.popBool.andThen fun b => .pure ?_
    split
    · exact iteration_active i
    · rfl
  | afterUntil i =>
    refine Rote.popBool.andThen fun b => .pure ?_
    split <;> rfl
  | advance i =>
    refine .ite (fun _ => ?_) fun _ => .pure rfl
    split
    · exact .pure rfl
    · exact .fail _
  | call callee count site =>
    exact (Rote.popMany _).andThen fun args => callValue_dull callee args site
  | operate slot count site =>
    exact (Rote.popMany _).andThen fun args => (Rote.load slot).andThen fun v =>
      callValue_dull v args site
  | enterRoutine scope environ args body =>
    exact (Rote.enterAt job scope environ).andThen fun before =>
      (Rote.modify fun _ => rfl).andThen fun _ => .pure rfl
  | print values => exact print_dull values
  | coerce kind node operand baseline =>
    cases kind with
    | deprocedure => exact Rote.pop.andThen fun v => callValue_dull v [] node
    | _ => exact absurd rfl hv
  | _ => exact absurd rfl hv

end Exec

end Algol68
