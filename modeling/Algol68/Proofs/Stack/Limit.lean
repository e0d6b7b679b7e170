import Algol68.Proofs.Machine.Quiet
import Algol68.Proofs.Run.Action

/-! The expression stack is never higher than its limit. A push is refused where the limit is
reached, and a jump only cuts the stack down. -/

namespace Algol68

variable {job : Job}

namespace Exec

variable {α β : Type}

/-- The operation keeps to the limit of the stack. -/
def Roomy (job : Job) (x : Exec α) : Prop :=
  ∀ m, wp x (fun _ m' => m.KeepsRoom job m') (fun _ m' => m.KeepsRoom job m') m

theorem Hushed.roomy {Q : α → Prop} {x : Exec α} (h : Hushed job Q x) : Roomy job x :=
  fun m => wp_mono (h m) (fun _ _ h => h.2.room) fun _ _ h => h.room

theorem Works.roomy {Q : α → Prop} {x : Exec α} (h : Works job Q x) : Roomy job x :=
  (Hushed.of_works h).roomy

theorem Roomy.bind {x : Exec α} {f : α → Exec β} (hx : Roomy job x) (hf : ∀ a, Roomy job (f a)) :
    Roomy job (x >>= f) := by
  intro m
  rw [wp_bind]
  refine wp_mono (hx m) (fun a m₁ ha => ?_) fun _ _ h => h
  exact wp_mono (hf a m₁) (fun _ _ h => ha.trans h) fun _ _ h => ha.trans h

theorem Roomy.pure (a : α) : Roomy job (pure a) := (Hushed.pure (Q := fun _ => True) trivial).roomy

theorem transput_roomy (f : Transput → Transput) : Roomy job (transput f) :=
  fun _ => .of_le (Nat.le_refl _)

theorem callValue_roomy (callee : Value) (args : List Value) (site : NodeId) :
    Roomy job (callValue job callee args site) := by
  by_cases h : ∃ p, callee = .procedure (.standard p)
  · obtain ⟨p, rfl⟩ := h
    cases p with
    | print => exact .pure _
    | newline => exact (transput_roomy _).bind fun _ => .pure _
  · exact (callValue_hushes (not_exists.mp h) args site).roomy

theorem print_roomy (values : List Value) : Roomy job (print job values) := by
  have emitted (f : Transput → Transput) (rest : List Value) :
      Roomy job (do transput f; return [Task.print rest]) := (transput_roomy f).bind fun _ => .pure _
  unfold print
  split
  · exact .pure _
  · split
    · exact .pure _
    · exact .pure _
    · exact .pure _
    · exact (Works.read _).roomy.bind fun _ => .pure _
    · exact emitted _ _
    · exact .pure _
    · exact (Hushed.lift _).roomy
    · exact (Hushed.fail (Q := fun _ => True) _).roomy
    all_goals exact emitted _ _

theorem exec_roomy (t : Task) : Roomy job (t.exec job) := by
  by_cases hp : t.printing? = none
  · by_cases hc : t.calls
    · intro m
      refine wp_calls hc (fun _ S hS => .of_le hS) fun callee args site S hS => ?_
      have kept : m.KeepsRoom job { m with stack := S } := .of_le hS
      exact wp_mono (callValue_roomy callee args site _) (fun _ _ h => kept.trans h)
        fun _ _ h => kept.trans h
    · exact (exec_hushes hp (Bool.eq_false_iff.mpr hc)).roomy
  · cases t with
    | print values => exact print_roomy values
    | _ => exact absurd rfl hp

end Exec

variable {A A' : Agenda} {m m' : Machine} {units : NodeId → Prop}

theorem Does.keepsRoom (h : Does job (A, m) (A', m')) : m.KeepsRoom job m' := by
  cases h with
  | @done t _ _ _ _ he =>
    have room := Exec.wp_ok (Exec.exec_roomy t m) he
    exact room
  | @resumed t rest _ _ m₁ _ s he hu =>
    have room := Exec.wp_error (Exec.exec_roomy t m) he
    obtain ⟨j, before, c, after, work, -, -, -, -, -, -, rfl⟩ := unwind_resumed hu
    refine room.trans (.of_le ?_)
    simp only [LabelledClause.caught, Array.size_shrink, Machine.undo_stack]
    exact Nat.min_le_right ..

theorem Underway.stack_le (h : Underway job units A m) : m.stack.size ≤ job.config.stackLimit := by
  induction h with
  | run hs =>
    rw [hs.stack]
    exact Nat.zero_le _
  | resume => exact Nat.zero_le _
  | step _ hs ih => exact Nat.le_trans hs.keepsRoom (Nat.max_le.mpr ⟨ih, Nat.le_refl _⟩)

end Algol68
