import Algol68.Proofs.Scope.Designation

/-! Static scoping is exact. Whenever a slot of a well-scoped program is used, it is found in the
activation that lexical scoping designates, and no run fails for want of a frame or a local. -/

namespace Algol68

open Outline

/-- The slots that a task looks up. -/
inductive Task.Accesses (p : Program) : Task → Slot → Prop where
  | identifier {n : NodeId} {slot : Slot} (hk : p.tree.kind n = .identifier slot) :
      Accesses p (.elaborate n) slot
  | operator (slot : Slot) (count : Nat) (site : NodeId) : Accesses p (.operate slot count site) slot
  | binding (slot : Slot) (v : Value) : Accesses p (.store slot v) slot
  | identity (slot : Slot) : Accesses p (.bind slot) slot
  | declaration (slot : Slot) (init : Option NodeId) : Accesses p (.declare slot init) slot
  | counter {i : Iteration} {slot : Slot} (hs : slot ∈ i.parts.counter) : Accesses p (.iterate i) slot

/-- The node at which a task looks up its slot. -/
def Task.site : Task → Option NodeId
  | .elaborate n | .operate _ _ n => some n
  | _ => none

/-- A slot is found in the activation that lexical scoping designates: that of the range around the
place of its use that declares it. -/
def Designates (p : Program) (starts : NodeId → Prop) (L : Lexicon) (m : Machine) (t : Task)
    (slot : Slot) : Prop :=
  ∃ s d k f, (∀ n ∈ t.site, p.Stands starts s n) ∧ m.outline.Inside p s ∧ p.Encloses d s ∧
    p.Declares d slot ∧ m.frames.resolve slot.level = .ok k ∧ m.frames.frames[k]? = some f ∧
    f.scope = d ∧ slot.offset < f.locals.size ∧ L.here m d = some f.serial

variable {job : Job} {units starts : NodeId → Prop} {A rest : Agenda} {m m' : Machine} {L : Lexicon}
  {t : Task} {slot : Slot}

/-- Where a task looks up a slot, the slot is seen. -/
theorem Recorded.sees (hw : job.program.WellScoped starts)
    (h : Recorded job starts (t :: rest) m L) (ha : t.Accesses job.program slot) :
    ∃ s, (∀ n ∈ t.site, job.program.Stands starts s n) ∧ m.outline.Sees job.program s slot := by
  have hp := h.state.placed.1
  have unplaced {t : Task} {s : ScopeId} (ht : t.site = none) :
      ∀ n ∈ t.site, job.program.Stands starts s n := by simp [ht]
  cases ha with
  | identifier hk =>
    obtain ⟨s, hs⟩ := hp
    have visible := hw.proper hs.stands
    rw [hk] at visible
    obtain ⟨d, hd, hds⟩ := visible
    refine ⟨s, ?_, hs.sees hd hds (by rw [hk]; exact List.mem_singleton_self _)⟩
    rintro n ⟨⟩
    exact hs.stands
  | operator =>
    obtain ⟨s, hstands, hs⟩ := hp
    refine ⟨s, ?_, hs⟩
    rintro n ⟨⟩
    exact hstands
  | binding | identity =>
    obtain ⟨s, hs⟩ := hp
    exact ⟨s, unplaced rfl, hs⟩
  | declaration =>
    obtain ⟨⟨s, hs⟩, -⟩ := hp
    exact ⟨s, unplaced rfl, hs⟩
  | counter hslot => exact ⟨_, unplaced rfl, hp.sees hslot⟩

theorem Recorded.designates (hw : job.program.WellScoped starts)
    (h : Recorded job starts (t :: rest) m L) (ha : t.Accesses job.program slot) :
    Designates job.program starts L m t slot := by
  obtain ⟨s, hstands, hs⟩ := h.sees hw ha
  have htop : m.outline.top = m.frames.depth - 1 := by simp [Outline.top, Machine.outline]
  obtain ⟨d, k, f, hd, hds, hl, hf, rfl, hr⟩ := hs.resolve h.state.nested
  obtain ⟨g, hg, -⟩ := hs.1
  have agrees := h.fits.here hg
  rw [htop] at agrees
  have hsize := h.state.consistent.sound.sized k f hf
  have hsee := agrees k f hl hf
  rw [FrameStack.hollow_getElem?] at hf
  obtain ⟨x, hx, rfl⟩ := Option.map_eq_some_iff.mp hf
  refine ⟨s, _, k, x, hstands, hs.1, hd, hds, hr, hx, rfl, ?_, hsee⟩
  simp only [Frame.hollow, Array.size_replicate] at hsize
  rw [hsize]
  exact hds.offset

theorem Signal.Blameless.unwind {s s' : Signal} (h : s.Blameless)
    (hu : Algol68.unwind job s A m = .escaped s' m') : s'.Blameless := by
  have faults {f : Fault} {B : Agenda} {m₁ : Machine} (hf : f.cause.ofLocal = false)
      (hu : Algol68.unwind job (.fault f) B m₁ = .escaped s' m') : s'.Blameless := by
    obtain ⟨f', hc, hf'⟩ := @unwind_fault job f B m₁
    cases hf'.symm.trans hu
    exact (congrArg Cause.ofLocal hc).trans hf
  cases s with
  | fault f => exact faults h hu
  | jump j =>
    rcases exists_first_takes j A with hn | ⟨before, c, after, rfl, hb, hc⟩
    · rw [unwind_jump_of_not_takes hn] at hu
      cases hu
      trivial
    · rw [unwind_jump_of_takes hb hc] at hu
      split at hu
      · cases hu
      · next f hf =>
        obtain ⟨label, rfl⟩ := LabelledClause.resume_eq_error hf
        exact faults rfl hu

section

variable (hw : job.program.WellScoped (job.starts units))
  (hj : job.program.JumpsOutward (job.starts units))

include hw hj

/-- No run fails for want of a frame or a local. -/
theorem Machine.Ready.blameless {s : Session} (hs : s.job = job)
    (h : s.machine.Ready job (job.starts units) L) (steps : Nat) {unit : NodeId}
    (hu : job.starts units unit) {f : Fault} (hf : (s.runUnit steps unit).1.fault? = some f) :
    f.cause.ofLocal = false := by
  rcases Session.runUnit_fault hf with ⟨sig, m', hx, rfl⟩ | hc | ⟨i, j, hc⟩
  · rw [hs] at hx
    obtain ⟨t, rest, m₀, m₁, s₀, hr, he, hu'⟩ := hx
    have start := h.recorded hw hu
    obtain ⟨L', hr⟩ := start.exists_runs hw hj hr
    obtain ⟨-, -, hb⟩ := (start.runs hw hj hr).state.of_error hw hj he
    have escaped := hb.unwind hu'
    cases sig with
    | fault f => exact escaped
    | jump j => rfl
  · rw [hc]
    rfl
  · rw [hc]
    rfl

/-- Of a well-scoped program whose jumps lead outward, every state of every session can be reached with
a lexicon that notes what lexical scoping designates; with every such lexicon, each slot that is looked
up is found in the activation that is designated; and no run fails for want of a frame or a local. -/
theorem slots_designated :
    (∀ A m, Underway job units A m → ∃ L, Chronicle job units A m L) ∧
    (∀ t rest m L slot, Chronicle job units (t :: rest) m L → t.Accesses job.program slot →
      Designates job.program (job.starts units) L m t slot) ∧
    (∀ s, Session.Reached job units s →
      (∀ steps f, (s.run steps).1.fault? = some f → f.cause.ofLocal = false) ∧
      ∀ steps unit f, units unit → (s.resume steps unit).1.fault? = some f →
        f.cause.ofLocal = false) := by
  refine ⟨fun A m h => h.exists_chronicle hw hj, fun t rest m L slot h ha => ?_, fun s h => ?_⟩
  · exact (h.recorded hw hj).designates hw ha
  · obtain ⟨L, hL⟩ := h.exists_recounted hw hj
    obtain ⟨rfl, hready⟩ := hL.ready hw hj
    constructor
    · intro steps f hf
      exact hready.blameless hw hj rfl steps (.inl rfl) hf
    · intro steps unit f hu hf
      exact Machine.Ready.blameless hw hj (s := s.atRest) rfl (hready.atRest hw.standard) steps
        (.inr hu) hf

end

/-- The program `(INT x = 5; x)`. -/
def homely : Job where
  program := {
    tree := {
      nodes := #[⟨.literal (.int 5), .int, .dummy⟩, ⟨.identityDeclaration ⟨1, 0⟩ ⟨0⟩, .void, .dummy⟩,
        ⟨.separator, .void, .dummy⟩, ⟨.identifier ⟨1, 0⟩, .int, .dummy⟩,
        ⟨.serialClause ⟨1⟩ ⟨0, 3⟩, .int, .dummy⟩, ⟨.closed ⟨1⟩ ⟨4⟩, .int, .dummy⟩]
      lists := #[⟨1⟩, ⟨2⟩, ⟨3⟩]
      modeLists := #[]
      loops := #[]
      alternatives := #[] }
    modes := .new
    scopes := ⟨#[.standard, ⟨some .standard, 1, #[.int], false⟩]⟩
    labels := .new
    interner := .new
    root := ⟨5⟩
    environs := #[] }
  oracle := ModeTable.oracle .new
  config := .default

theorem homely_stands {s : ScopeId} {n : NodeId}
    (h : homely.program.Stands (homely.starts fun _ => False) s n) :
    (s, n) ∈ [((⟨0⟩ : ScopeId), (⟨5⟩ : NodeId)), (⟨1⟩, ⟨4⟩), (⟨1⟩, ⟨1⟩), (⟨1⟩, ⟨2⟩), (⟨1⟩, ⟨3⟩),
      (⟨1⟩, ⟨0⟩)] := by
  refine h.mem (fun n hn => ?_) (by decide)
  rcases hn with rfl | hn
  · decide
  · exact hn.elim

theorem homely_wellScoped : homely.program.WellScoped (homely.starts fun _ => False) := by
  have slot : homely.program.Declares ⟨1⟩ ⟨1, 0⟩ := ⟨rfl, by decide⟩
  refine .of_places [(⟨0⟩, ⟨5⟩), (⟨1⟩, ⟨4⟩), (⟨1⟩, ⟨1⟩), (⟨1⟩, ⟨2⟩), (⟨1⟩, ⟨3⟩), (⟨1⟩, ⟨0⟩)] rfl
    (by decide) (by decide) (fun n hn => ?_) (by decide) ?_
  · rcases hn with rfl | hn
    · decide
    · exact hn.elim
  · simp only [List.forall_mem_cons, List.not_mem_nil, false_imp_iff, implies_true, and_true]
    refine ⟨⟨⟨rfl, rfl⟩, fun range items h => ?_⟩, trivial, slot, trivial, ⟨⟨1⟩, .refl, slot⟩, trivial⟩
    cases h
    rfl

theorem homely_jumpsOutward : homely.program.JumpsOutward (homely.starts fun _ => False) := by
  intro s n l h hk
  have places := homely_stands h
  simp only [List.mem_cons, Prod.mk.injEq, List.not_mem_nil, or_false] at places
  rcases places with ⟨-, rfl⟩ | ⟨-, rfl⟩ | ⟨-, rfl⟩ | ⟨-, rfl⟩ | ⟨-, rfl⟩ | ⟨-, rfl⟩ <;> cases hk

/-- The declaration of `homely` stores into the closed clause around it. -/
theorem homely_designated : ∃ rest m L,
    Chronicle homely (fun _ => False) (.bind ⟨1, 0⟩ :: rest) m L ∧
    Designates homely.program (homely.starts fun _ => False) L m (.bind ⟨1, 0⟩) ⟨1, 0⟩ := by
  obtain ⟨rest, m, hd⟩ : ∃ rest m,
      drive homely 8 [.unit homely.program.root] (Session.new homely none false).machine =
        .unfinished (.bind ⟨1, 0⟩ :: rest) m := ⟨_, _, rfl⟩
  have hu : Underway homely (fun _ => False) (.bind ⟨1, 0⟩ :: rest) m :=
    .runs (.run (.new none false)) (runs_of_unfinished hd)
  obtain ⟨recounted, designates, -⟩ := slots_designated homely_wellScoped homely_jumpsOutward
  obtain ⟨L, hL⟩ := recounted _ _ hu
  exact ⟨rest, m, L, hL, designates _ _ _ _ _ hL (.identity ⟨1, 0⟩)⟩

/-- The program `(TO 2 DO ((PROC VOID: GOTO l)) OD)`, where `l` is a label of another range in the
loop's body. The second iteration finds the closed clause reduced to the routine text, whose environ
is still sought at the level of the label. -/
def stray : Job where
  program := {
    tree := {
      nodes := #[⟨.jump ⟨0⟩, .void, .dummy⟩, ⟨.routineText ⟨5⟩ 0 ⟨0⟩, ⟨7⟩, .dummy⟩,
        ⟨.serialClause ⟨4⟩ ⟨0, 1⟩, ⟨7⟩, .dummy⟩, ⟨.closed ⟨4⟩ ⟨2⟩, ⟨7⟩, .dummy⟩,
        ⟨.serialClause ⟨3⟩ ⟨1, 1⟩, .void, .dummy⟩, ⟨.literal (.int 2), .int, .dummy⟩,
        ⟨.loop ⟨0⟩, .void, .dummy⟩, ⟨.serialClause ⟨1⟩ ⟨2, 1⟩, .void, .dummy⟩,
        ⟨.closed ⟨1⟩ ⟨7⟩, .void, .dummy⟩]
      lists := #[⟨1⟩, ⟨3⟩, ⟨6⟩]
      modeLists := #[]
      loops := #[⟨⟨2⟩, ⟨3⟩, none, none, none, some ⟨5⟩, none, ⟨4⟩, none⟩]
      alternatives := #[] }
    modes := ⟨Mode.primitives.push (.proc [] .void)⟩
    scopes := ⟨#[.standard, ⟨some ⟨0⟩, 1, #[], false⟩, ⟨some ⟨1⟩, 2, #[], false⟩,
      ⟨some ⟨2⟩, 3, #[], false⟩, ⟨some ⟨3⟩, 4, #[], false⟩, ⟨some ⟨4⟩, 5, #[], false⟩,
      ⟨some ⟨3⟩, 4, #[], true⟩]⟩
    labels := ⟨#[⟨⟨0⟩, ⟨6⟩, none, none⟩]⟩
    interner := .new
    root := ⟨8⟩
    environs := #[0, 4] }
  oracle := ModeTable.oracle ⟨Mode.primitives.push (.proc [] .void)⟩
  config := .default

theorem stray_wellScoped : stray.program.WellScoped (stray.starts fun _ => False) := by
  refine .of_places [(⟨0⟩, ⟨8⟩), (⟨1⟩, ⟨7⟩), (⟨1⟩, ⟨6⟩), (⟨1⟩, ⟨5⟩), (⟨3⟩, ⟨4⟩), (⟨3⟩, ⟨3⟩), (⟨4⟩, ⟨2⟩),
    (⟨4⟩, ⟨1⟩), (⟨5⟩, ⟨0⟩)] rfl (by decide) (by decide) (fun n hn => ?_) (by decide) ?_
  · rcases hn with rfl | hn
    · decide
    · exact hn.elim
  · have runs {scope : ScopeId} {n : NodeId} {range : NodeRange}
        (hk : stray.program.tree.kind n = .serialClause scope range) :
        stray.program.RunsIn scope n := by
      intro range' items h
      cases hk.symm.trans h
      rfl
    have child {inner outer : ScopeId} (hp : (stray.program.scopes.get inner).parent = some outer)
        (hl : stray.program.level inner = stray.program.level outer + 1) :
        stray.program.Child inner outer := ⟨hp, hl⟩
    simp only [List.forall_mem_cons, List.not_mem_nil, false_imp_iff, implies_true, and_true]
    refine ⟨⟨child rfl rfl, runs rfl⟩, trivial,
      ⟨child rfl rfl, child rfl rfl, by simp [stray, Tree.loopParts], ?_⟩, trivial, trivial,
      ⟨child rfl rfl, runs rfl⟩, trivial, child rfl rfl, trivial⟩
    intro n hn
    cases List.mem_singleton.mp hn
    exact runs rfl

/-- Where a jump leads to a range that is not around it, a well-scoped program may want for a frame. -/
theorem stray_misses_frame : stray.program.WellScoped (stray.starts fun _ => False) ∧
    ((Session.new stray none false).run 100).1.fault?.map Fault.cause = some (.missingFrame 4) :=
  ⟨stray_wellScoped, rfl⟩

end Algol68
