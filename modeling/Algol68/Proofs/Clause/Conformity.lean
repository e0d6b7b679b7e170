import Algol68.Proofs.Clause.Case

/-! Conformity clauses. The first alternative with a specifier that accepts the variant of the united value
is run, with the value bound as that specifier has it. A value that is united more than once keeps the
variant and the payload of the first time, so a chain of unitings does not change what is chosen. -/

namespace Algol68

open Exec (wp)

variable {job : Job} {units : NodeId → Prop} {m m₀ m₁ m₂ m' : Machine} {n enquiry node : NodeId}
  {scope : ScopeId} {W A rest : Agenda} {mode variant : ModeId} {out : Option NodeId}
  {as : List NodeId} {a : Alternative} {s : ModeId} {payload v : Value} {c u : NodeId}

/-! The first alternative that accepts. -/

/-- What a specifier that accepts binds: the payload, or the united value if the specifier is itself a
union. -/
def ModeOracle.bound (o : ModeOracle) (s variant : ModeId) (payload : Value) : Value :=
  if (o.variants s).isSome then .union variant payload else payload

/-- The tasks of an alternative whose frame was opened at some depth: its binding gets its value, the unit
is evaluated, and the frame is closed. -/
def Alternative.work (a : Alternative) (bound : Value) (depth : Nat) : Agenda :=
  a.binding.toList.map (Task.store · bound) ++ [.unit a.unit, .leave depth]

namespace Exec

end Exec

/-! The binding. -/

namespace FrameStack

end FrameStack

def Value.isUnion : Value → Bool
  | .union .. => true
  | _ => false

/-- A value united from an operand of a mode: a united value stays what it is. -/
def Value.united (mode : ModeId) : Value → Value
  | .union variant payload => .union variant payload
  | v => .union mode v

theorem Value.united_of_not_union (h : v.isUnion = false) (mode : ModeId) :
    v.united mode = .union mode v := by
  cases v <;> first | rfl | cases h

/-- A unit is an operand united once or any number of times. -/
inductive Unites (tree : Tree) : NodeId → NodeId → Prop where
  | once {c u : NodeId} (kind : tree.kind c = .coercion .unite u) : Unites tree c u
  | again {c d u : NodeId} (kind : tree.kind c = .coercion .unite d) (more : Unites tree d u) :
      Unites tree c u

/-- A uniting coercion evaluates its operand first. -/
theorem Does.uniting (h : job.program.tree.kind c = .coercion .unite u)
    (hu : Underway job units (.unit c :: rest) m) : ∃ e, e.ends = some c ∧
      Runs job ([.unit c], m) ([.unit u, .coerce .unite c u m.stack.size, e], m.counting) := by
  obtain ⟨e, he, hx⟩ := Exec.exec_unit (n := c) hu.informed.faithful (by simp [h])
  have elaborates : (Task.elaborate c).exec job m.counting =
      .ok [.unit u, .coerce .unite c u m.stack.size] m.counting := by
    refine Exec.eq_ok_of_wp ?_
    simp [Task.exec, Exec.elaborate, h, Machine.counting]
  have hs : Does job ([.elaborate c, e], m.counting)
      ([.unit u, .coerce .unite c u m.stack.size, e], m.counting) := .done elaborates
  exact ⟨e, he, .head (does_single_iff.mpr hx) (.single hs)⟩

theorem Runs.unites (u : NodeId) (baseline : Nat) {e : Task} {S : Array Value} (he : e.ends = some c)
    (room : S.size < job.config.stackLimit) (hS : m.stack = S.push v) :
    ∃ known, Runs job ([.coerce .unite c u baseline, e], m)
      ([], { m with stack := S.push (v.united (job.program.tree.mode u)), annotations := known }) := by
  have unites : (Task.coerce .unite c u baseline).exec job m =
      .ok [] { m with stack := S.push (v.united (job.program.tree.mode u)) } := by
    refine Exec.eq_ok_of_wp ?_
    simp only [Task.exec, Exec.coerce, Exec.wp_bind, Exec.wp_pop]
    refine ⟨fun T w hT => ?_, fun hempty => by simp [hempty] at hS⟩
    obtain ⟨rfl, rfl⟩ := Array.push_eq_push.mp (hT.symm.trans hS)
    cases w <;> simp [Value.united, Nat.not_le.mpr room]
  have ends : ∃ known, e.exec job { m with stack := S.push (v.united (job.program.tree.mode u)) } =
      .ok [] { m with stack := S.push (v.united (job.program.tree.mode u)), annotations := known } := by
    cases e with
    | settle k => exact ⟨_, rfl⟩
    | within k => exact ⟨_, rfl⟩
    | _ => cases he
  obtain ⟨known, hx⟩ := ends
  have hs : Does job ([.coerce .unite c u baseline, e], m)
      ([e], { m with stack := S.push (v.united (job.program.tree.mode u)) }) := .done unites
  exact ⟨known, .head hs (.single (does_single_iff.mpr hx))⟩

/-- However often an operand is united, its value ends up united once, from the mode of the operand. -/
theorem Unites.runs (h : Unites job.program.tree c u) (hu : Underway job units (.unit c :: rest) m) :
    ∃ closing m₁, Runs job ([.unit c], m) (.unit u :: closing, m₁) ∧
      ∀ (S : Array Value) (v : Value) (m₂ : Machine), Runs job ([.unit u], m₁) ([], m₂) →
        m₂.stack = S.push v → v.isUnion = false → ∃ known, Runs job (closing, m₂) ([], { m₂ with
          stack := S.push (.union (job.program.tree.mode u) v), annotations := known }) := by
  have room {A : Agenda} {m₁ m₂ : Machine} {S : Array Value} {v : Value}
      (hA : Underway job units (.unit u :: A) m₁) (hr : Runs job ([.unit u], m₁) ([], m₂))
      (hS : m₂.stack = S.push v) : S.size < job.config.stackLimit := by
    have hle := (hA.runs (hr.append A)).stack_le
    rw [hS, Array.size_push] at hle
    exact hle
  induction h generalizing rest m with
  | @once c u kind =>
    obtain ⟨e, he, hr⟩ := Does.uniting kind hu
    refine ⟨_, _, hr, fun S v m₂ hrun hS hv => ?_⟩
    obtain ⟨known, closes⟩ := Runs.unites u m.stack.size he
      (room (hu.runs (hr.append rest)) hrun hS) hS
    rw [Value.united_of_not_union hv] at closes
    exact ⟨known, closes⟩
  | @again c d u kind more ih =>
    obtain ⟨e, he, hr⟩ := Does.uniting kind hu
    obtain ⟨closing, m₁, hr', inner⟩ := ih (hu.runs (hr.append rest)) room
    refine ⟨closing ++ [.coerce .unite c d m.stack.size, e], m₁, hr.trans (hr'.append _),
      fun S v m₂ hrun hS hv => ?_⟩
    obtain ⟨known, closes⟩ := inner S v m₂ hrun hS hv
    have hA := hu.runs (hr.append rest) |>.runs (hr'.append _)
    obtain ⟨known', closes'⟩ := Runs.unites d m.stack.size he (room hA hrun hS)
      (m := { m₂ with stack := S.push (.union (job.program.tree.mode u) v), annotations := known }) rfl
    exact ⟨known', (closes.append _).trans closes'⟩

end Algol68
