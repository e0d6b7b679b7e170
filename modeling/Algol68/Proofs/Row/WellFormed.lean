import Algol68.Proofs.Run.Fits

/-! Well-formed rows. Whatever a program does, its rows have the elements that their bounds ask for. -/

namespace Algol68

variable {job : Job} {units : NodeId → Prop} {A A' : Agenda} {m m' : Machine} {N : ℕ∞}
  {D : ModeId → Prop} {v : Value}

/-- Every row in a value has as many elements as the product of the extents of its bounds. -/
def Value.Exact (v : Value) : Prop :=
  ∀ r : Row Value, .row r ∈ v.parts → r.size = (r.dims.map Bounds.extent).prod

/-- Every row in a value, unless it has 2⁶³ elements or more, has as many as the product of the extents of
its bounds. -/
def Value.WellFormed (v : Value) : Prop :=
  ∀ r : Row Value, .row r ∈ v.parts → r.size < 2 ^ 63 → r.size = (r.dims.map Bounds.extent).prod

/-- The values in a state: those on the stack, in the locals, in the locations and in the tasks. -/
inductive Present (A : Agenda) (m : Machine) : Value → Prop where
  | stack {v : Value} (hv : v ∈ m.stack) : Present A m v
  | locals {f : Frame} {v : Value} (hf : f ∈ m.frames.frames) (hv : v ∈ f.locals) : Present A m v
  | cell {v : Value} (hv : v ∈ m.store.cells) : Present A m v
  | task {t : Task} {v : Value} (ht : t ∈ A) (hv : v ∈ t.values) : Present A m v

theorem Present.fits (h : StateFits N D A m) (hv : Present A m v) : v.Fits N := by
  cases hv with
  | stack hv => exact h.machine.stack v hv
  | locals hf hv => exact h.machine.locals _ hf v hv
  | cell hv => exact h.machine.store v hv
  | task ht hv => exact (h.tasks _ ht).values v hv

theorem StateFits.of_present (h : ∀ v, Present A m v → v.Fits N) :
    StateFits N (fun _ => True) A m where
  machine.stack v hv := h v (.stack hv)
  machine.locals _ hf v hv := h v (.locals hf hv)
  machine.store v hv := h v (.cell hv)
  tasks _ ht := ⟨fun v hv => h v (.task ht hv), fun _ _ _ => trivial⟩

theorem Value.Fits.wellFormed (h : v.Fits ⊤) : v.WellFormed :=
  fun r hr hlt => (h (.row r) hr).exact hlt

theorem Value.Exact.fits (h : v.Exact) : v.Fits ⊤ := by
  intro p hp
  cases p with
  | row r =>
    have hsize := h r hp
    exact ⟨fun _ => hsize, (volume_le_exactVolume _).trans_eq hsize.symm, le_top⟩
  | string text => exact le_top
  | _ => trivial

theorem StateFits.supplies (h : StateFits ⊤ D A m) : Supplies ⊤ job A m := by
  refine ⟨fun node rest l _ _ => ?_, fun mode baseline rest _ _ => ?_⟩
  · cases l with
    | string tag => exact Value.fits_string.mpr le_top
    | _ => exact Value.fits_of_parts rfl trivial
  · refine (Value.display_gives mode fun v hv => ?_).mono fun w hw => hw w.atMost_top
    exact h.machine.stack v (Array.mem_def.mpr (List.mem_of_mem_drop hv))

/-- In every state of every session the rows are well-formed, wherever they are; and from any state, also one
that no session comes to, a step leaves rows well-formed if they were. -/
theorem rows_wellFormed (job : Job) (units : NodeId → Prop) :
    (∀ A m, Underway job units A m → ∀ v, Present A m v → v.WellFormed) ∧
    (∀ A m A' m', (∀ v, Present A m v → v.Exact) → Does job (A, m) (A', m') →
      ∀ v, Present A' m' v → v.WellFormed) := by
  have one : (1 : ℕ∞) ≤ ⊤ := le_top
  have limit : (job.config.objectLimit : ℕ∞) ≤ ⊤ := le_top
  refine ⟨fun A m h v hv => ?_, fun A m A' m' h hd v hv => ?_⟩
  · have fits : StateFits ⊤ (fun _ => True) A m :=
      h.fits one limit (fun _ _ _ => trivial) fun _ _ _ hfits => hfits.supplies
    exact (hv.fits fits).wellFormed
  · have before := StateFits.of_present fun v hv => (h v hv).fits
    have after := before.does one limit (fun _ _ _ => trivial) before.supplies hd
    exact (hv.fits after).wellFormed

/-- The display `((1, 2, 3), (4, 5, 6))` of mode `[,] INT`. -/
def table : Job where
  program := {
    tree := {
      nodes := #[⟨.literal (.int 1), .int, .dummy⟩, ⟨.literal (.int 2), .int, .dummy⟩,
        ⟨.literal (.int 3), .int, .dummy⟩, ⟨.collateral ⟨0, 3⟩, ⟨7⟩, .dummy⟩,
        ⟨.literal (.int 4), .int, .dummy⟩, ⟨.literal (.int 5), .int, .dummy⟩,
        ⟨.literal (.int 6), .int, .dummy⟩, ⟨.collateral ⟨3, 3⟩, ⟨7⟩, .dummy⟩,
        ⟨.collateral ⟨6, 2⟩, ⟨8⟩, .dummy⟩]
      lists := #[⟨0⟩, ⟨1⟩, ⟨2⟩, ⟨4⟩, ⟨5⟩, ⟨6⟩, ⟨3⟩, ⟨7⟩]
      modeLists := #[]
      loops := #[]
      alternatives := #[] }
    modes := ⟨(Mode.primitives.push (.row 1 .int)).push (.row 2 .int)⟩
    scopes := ⟨#[.standard]⟩
    labels := ⟨#[]⟩
    interner := .new
    root := ⟨8⟩
    environs := #[] }
  oracle := ModeTable.oracle .new
  config := .default

/-- The machine that has the two rows of `table` on its stack. -/
def table.stacked : Machine := { Machine.new table false with
  stack := #[.row ⟨[⟨1, 3⟩], #[.int 1, .int 2, .int 3]⟩, .row ⟨[⟨1, 3⟩], #[.int 4, .int 5, .int 6]⟩] }

theorem table.stacked_exact {v : Value} (hv : Present [.aggregate ⟨8⟩ 0] table.stacked v) : v.Exact := by
  intro r hr
  cases hv with
  | stack hv =>
    have hv : v = .row ⟨[⟨1, 3⟩], #[.int 1, .int 2, .int 3]⟩ ∨
        v = .row ⟨[⟨1, 3⟩], #[.int 4, .int 5, .int 6]⟩ := by simpa [table.stacked] using hv
    rcases hv with rfl | rfl <;>
    · obtain rfl : r = _ := by simpa [Value.parts, Value.partsOfAll] using hr
      rfl
  | locals hf hv =>
    obtain rfl := Array.mem_singleton.mp hf
    obtain ⟨mode, hmode, -⟩ := Array.mem_map.mp hv
    exact absurd hmode (Array.not_mem_empty mode)
  | cell hv => exact absurd hv (Array.not_mem_empty _)
  | task ht hv =>
    obtain rfl := List.mem_singleton.mp ht
    cases hv

/-- The display of `table` leaves a row of two times three elements on the stack. -/
theorem table_wellFormed :
    (∃ m r, Underway table (fun _ => False) [] m ∧ m.stack = #[.row r] ∧
      r.dims = [⟨1, 2⟩, ⟨1, 3⟩] ∧ r.size = (r.dims.map Bounds.extent).prod) ∧
    ∃ m r, Does table ([.aggregate ⟨8⟩ 0], table.stacked) ([], m) ∧ m.stack = #[.row r] ∧
      r.dims = [⟨1, 2⟩, ⟨1, 3⟩] ∧ r.size = (r.dims.map Bounds.extent).prod := by
  let whole : Row Value := ⟨[⟨1, 2⟩, ⟨1, 3⟩], #[.int 1, .int 2, .int 3, .int 4, .int 5, .int 6]⟩
  have hlt : whole.size < 2 ^ 63 := by decide
  constructor
  · obtain ⟨m, hd, hs⟩ : ∃ m, drive table 100 [.unit table.program.root]
        (Session.new table none false).machine = .completed m ∧ m.stack = #[.row whole] :=
      ⟨_, rfl, rfl⟩
    have hu : Underway table (fun _ => False) [] m :=
      .runs (.run (.new none false)) (runs_of_completed hd)
    have wellFormed := (rows_wellFormed table fun _ => False).1 [] m hu (.row whole) (.stack (by simp [hs]))
    exact ⟨m, whole, hu, hs, rfl, wellFormed whole (List.mem_cons_self ..) hlt⟩
  · obtain ⟨m, he, hs⟩ : ∃ m, (Task.aggregate ⟨8⟩ 0).exec table table.stacked = .ok [] m ∧
        m.stack = #[.row whole] := ⟨_, rfl, rfl⟩
    have hd : Does table ([.aggregate ⟨8⟩ 0], table.stacked) ([], m) := .done he
    have wellFormed := (rows_wellFormed table fun _ => False).2 _ _ _ _ (fun _ => table.stacked_exact) hd (.row whole)
      (.stack (by simp [hs]))
    exact ⟨m, whole, hd, hs, rfl, wellFormed whole (List.mem_cons_self ..) hlt⟩

end Algol68
