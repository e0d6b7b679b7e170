import Algol68.Machine.Unit
import Algol68.Proofs.Annotation.Truthful
import Algol68.Proofs.Frames.Outline
import Algol68.Proofs.Machine.Work

/-! What a task does to the outline. Most tasks are quiet: they leave the outline alone and so does
the work they put in their place. A task that opens a frame or starts a call puts work in its place
that undoes this, so the outline in which the rest of the agenda will be done does not change. -/

namespace Algol68

open Outline (Along Admits)

variable {job : Job}

/-- Two machines of the same outline that gave out the same serial numbers; what the second one
learned about nodes is true if what the first one knew was. -/
structure Machine.Still (job : Job) (m m' : Machine) : Prop where
  outline : m'.outline = m.outline
  nextSerial : m'.frames.nextSerial = m.frames.nextSerial
  learns : m.annotations.Truthful job → m'.annotations.Truthful job

theorem Machine.still_iff {m m' : Machine} : m.Still job m' ↔
    m'.frames.hollow = m.frames.hollow ∧ m'.calls = m.calls ∧
      m'.frames.nextSerial = m.frames.nextSerial ∧
      (m.annotations.Truthful job → m'.annotations.Truthful job) := by
  constructor
  · rintro ⟨ho, hn, ht⟩
    exact ⟨congrArg Outline.frames ho, congrArg Outline.calls ho, hn, ht⟩
  · rintro ⟨hf, hc, hn, ht⟩
    exact ⟨by simp [Machine.outline, hf, hc], hn, ht⟩

theorem Machine.Still.refl (m : Machine) : m.Still job m := ⟨rfl, rfl, id⟩

theorem Machine.Still.trans {m₁ m₂ m₃ : Machine} (h : m₁.Still job m₂) (h' : m₂.Still job m₃) :
    m₁.Still job m₃ := 
  ⟨h'.outline.trans h.outline, h'.nextSerial.trans h.nextSerial, h'.learns ∘ h.learns⟩

theorem Machine.still_stack (m : Machine) (S : Array Value) : m.Still job { m with stack := S } :=
  ⟨rfl, rfl, id⟩

theorem Machine.Worked.still {m m' : Machine} (h : m.Worked job m') : m.Still job m' := by
  refine Machine.still_iff.mpr ⟨?_, h.calls, ?_, ?_⟩ <;> simp [h.frames, h.annotations]

theorem Agenda.Simple.plain {A : Agenda} (h : A.Simple) : ∀ t ∈ A, t.plain := by
  intro t ht
  have := h t ht
  cases t <;> first | rfl | cases this

namespace Exec

/-- The outline stays, also under the work that is put in place of the task, and whatever ends the
task early is a fault. -/
def Quiet (job : Job) (x : Exec Agenda) : Prop :=
  ∀ m, wp x (fun work m' => m.Still job m' ∧ ∀ t ∈ work, t.plain)
    (fun s m' => m.Still job m' ∧ ∃ f, s = .fault f) m

/-- The work put in place of a task finds the outlines it asks for and ends in the outline `o`. -/
def Follows (job : Job) (x : Exec Agenda) (o : Outline) (m : Machine) : Prop :=
  wp x (fun work m' => m'.outline.Sound job m'.frames.nextSerial ∧
      m.frames.nextSerial ≤ m'.frames.nextSerial ∧
      (m.annotations.Truthful job → m'.annotations.Truthful job) ∧
      Along Admits m'.outline work ∧ m'.outline.passAll work = o)
    (fun _ m' => m.Still job m') m

theorem Quiet.follows {x : Exec Agenda} (h : Quiet job x) {m : Machine}
    (hs : m.outline.Sound job m.frames.nextSerial) : Follows job x m.outline m := by
  refine wp_mono (h m) ?_ fun _ _ h => h.1
  rintro work m' ⟨⟨ho, hn, ht⟩, hp⟩
  rw [ho, hn]
  exact ⟨hs, Nat.le_refl _, ht, Outline.along_of_plain hp, Outline.passAll_of_plain hp⟩

/-! Quiet operations. -/

theorem unit_quiet (node : NodeId) : Quiet job (Exec.unit node) := by
  intro m
  simp only [Exec.unit, wp_bind, wp_count, wp_get]
  split
  · simp [Machine.still_iff, Task.plain]
  · next source _ =>
    by_cases hs : source = node <;> simp [Machine.still_iff, Task.plain, hs]
  · simp [Machine.still_iff, Task.plain]

theorem Works.quiet {x : Exec Agenda} (hx : Works job Agenda.Simple x) : Quiet job x := fun m =>
  wp_mono (hx m) (fun _ _ h => ⟨h.2.still, h.1.plain⟩) fun _ _ h =>
    ⟨h.2.still, h.1.choose, h.1.choose_spec.1⟩

theorem orUndefined_quiet (mode : ModeId) (unit : Option NodeId) :
    Quiet job (orUndefined job mode unit) := by
  refine Works.quiet ((orUndefined_works mode unit).mono ?_)
  rintro _ (rfl | ⟨n, -, rfl⟩) <;> simp [Agenda.Simple, Task.simple]

/-- Whether a node of this kind is evaluated in a frame of its own, or by leaving for another. -/
def changesFrame : NodeKind → Bool
  | .closed .. | .conditional .. | .integerCase .. | .conformityCase .. | .jump _ => true
  | _ => false

theorem elaborate_quiet (node : NodeId) (h : changesFrame (job.program.tree.kind node) = false) :
    Quiet job (Exec.elaborate job node) := by
  by_cases hv : onValues (job.program.tree.kind node)
  · exact (elaborate_works hv).quiet
  intro m
  cases hk : job.program.tree.kind node with
  | closed | conditional | integerCase | conformityCase | jump => simp [hk, changesFrame] at h
  | identifier | routineText => simp [elaborate, hk, Machine.still_iff]
  | _ => simp [hk, onValues] at hv

theorem declare_quiet (slot : Slot) (init : Option NodeId) : Quiet job (declare slot init) := by
  intro m
  cases init <;> simp [declare, Machine.still_iff, Task.plain]

theorem print_quiet (values : List Value) : Quiet job (print job values) := by
  intro m
  unfold print
  split
  · simp [Machine.still_iff]
  · split <;> simp [Machine.still_iff, Task.plain, Value.mismatch, fault]

theorem callStandard_quiet (args : List Value) (p : StandardProcedure) :
    Quiet job (callStandard args p) := by
  intro m
  cases p <;> simp [callStandard, Machine.still_iff, Task.plain]

theorem values_quiet {t : Task} (h : t.onValues) : Quiet job (t.exec job) :=
  Works.quiet ((exec_works h).mono fun _ => Task.Leaves.simple)

theorem coerce_quiet (kind : CoercionKind) (node operand : NodeId) (baseline : Nat)
    (hk : kind ≠ .deprocedure) : Quiet job (coerce job kind node operand baseline) :=
  values_quiet (t := .coerce kind node operand baseline) (by simpa [Task.onValues] using hk)

end Exec

/-- Whether a task does nothing to frames and calls. -/
def Task.quiet : Task → Bool
  | .elaborate _ | .conform .. | .call .. | .operate .. | .coerce .. | .clause .. | .enterLoop _
  | .enterBody _ | .iterate _ | .afterWhile _ | .afterUntil _ | .advance _ | .enterRoutine ..
  | .leave _ | .endCall | .labelled _ => false
  | _ => true

theorem Exec.exec_quiet {t : Task} (h : t.quiet) : Exec.Quiet job (t.exec job) := by
  by_cases hv : t.onValues
  · exact values_quiet hv
  cases t with
  | elaborate | conform | call | operate | coerce | clause | enterLoop | enterBody | iterate
  | afterWhile | afterUntil | advance | enterRoutine | leave | endCall | labelled => cases h
  | unit node => exact unit_quiet node
  | declare slot init => exact declare_quiet slot init
  | print values => exact print_quiet values
  | settle node =>
    intro m
    exact ⟨⟨rfl, rfl, fun h => h.memoize node⟩, by simp⟩
  | store | bind =>
    intro m
    simp [Task.exec, Machine.still_iff]
  | _ => exact absurd rfl hv

end Algol68
