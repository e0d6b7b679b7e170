import Algol68.Proofs.Frames.Step
import Algol68.Proofs.Scope.Placement

/-! Tasks that leave the frames alone. The work they put in their place finds the frames it needs, and
they do not fail for want of a local. -/

namespace Algol68

/-- A signal that is not a fault for want of a local. -/
def Signal.Blameless : Signal → Prop
  | .fault f => f.cause.ofLocal = false
  | .jump _ => True

theorem Cause.ofLocal_of_ordinary {c : Cause} (h : c.ordinary = true) : c.ofLocal = false := by
  cases c <;> simp_all [ordinary, ofLocal]

theorem Signal.OfValues.blameless {s : Signal} (h : s.OfValues) : s.Blameless := by
  obtain ⟨⟨c, span, trace, notes⟩, rfl, hc, -⟩ := h
  cases c <;> simp_all [Cause.ofValues, Cause.ordinary, Cause.ofLocal, Blameless]

/-- Signals among which are those that work on values and on the stack can end in. -/
class Signal.Covers (E : Signal → Prop) : Prop where
  ordinary : ∀ c : Cause, c.ordinary = true → E (.fault (.of c))
  stackUnderflow : E (.fault (.of .stackUnderflow))
  stackOverflow : ∀ limit, E (.fault (.of (.expressionStackOverflow limit)))

instance : Signal.Covers Signal.Blameless :=
  ⟨fun _ h => Cause.ofLocal_of_ordinary h, rfl, fun _ => rfl⟩

namespace Exec

variable {α β : Type} {E : Signal → Prop} {Q : α → Prop} {R : β → Prop}

/-- Whatever the machine, the operation gives results with one property or ends in a signal with
another one. -/
def Gives (E : Signal → Prop) (Q : α → Prop) (x : Exec α) : Prop :=
  ∀ m, wp x (fun a _ => Q a) (fun s _ => E s) m

namespace Gives

theorem pure {a : α} (h : Q a) : Gives E Q (pure a) := fun _ => h

theorem bind {x : Exec α} {f : α → Exec β} (hx : Gives E Q x) (hf : ∀ a, Q a → Gives E R (f a)) :
    Gives E R (x >>= f) := by
  intro m
  rw [wp_bind]
  exact wp_mono (hx m) (fun a m' ha => hf a ha m') fun _ _ h => h

theorem andThen {x : Exec α} {f : α → Exec β} (hx : Gives E (fun _ => True) x)
    (hf : ∀ a, Gives E R (f a)) : Gives E R (x >>= f) := hx.bind fun a _ => hf a

theorem ite {p : Prop} [Decidable p] {x y : Exec α} (hx : p → Gives E Q x) (hy : ¬ p → Gives E Q y) :
    Gives E Q (if p then x else y) := by
  split
  · next h => exact hx h
  · next h => exact hy h

theorem fail {c : Cause} (h : E (.fault (.of c))) : Gives E Q (Exec.fail c) := fun _ => h

theorem get : Gives E (fun _ => True) get := fun _ => trivial

theorem modify (f : Machine → Machine) : Gives E (fun _ => True) (modify f) := fun _ => trivial

theorem depth : Gives E (fun _ => True) depth := fun _ => trivial

variable [Signal.Covers E]

theorem lift {c : Checked α} (h : Ordinary c) : Gives E (fun _ => True) (lift c) := by
  intro m
  rw [wp_lift]
  refine ⟨fun _ _ => trivial, fun f hf => ?_⟩
  obtain ⟨k, rfl, hk⟩ := h f hf
  exact Signal.Covers.ordinary k hk

theorem push (job : Job) (v : Value) : Gives E (fun _ => True) (push job v) := by
  intro m
  rw [wp_push]
  exact ⟨fun _ => Signal.Covers.stackOverflow _, fun _ => trivial⟩

theorem pop : Gives E (fun _ => True) pop := by
  intro m
  rw [wp_pop]
  exact ⟨fun _ _ _ => trivial, fun _ => Signal.Covers.stackUnderflow⟩

theorem popMany (n : Nat) : Gives E (fun _ => True) (popMany n) := by
  intro m
  rw [wp_popMany]
  exact ⟨fun _ => Signal.Covers.stackUnderflow, fun _ => trivial⟩

theorem popBool : Gives E (fun _ => True) popBool := pop.andThen fun v => lift v.asBool_ordinary

theorem read (n : Name) : Gives E (fun _ => True) (read n) :=
  get.andThen fun m => lift (m.store.get_ordinary n)

theorem pushUndefined (job : Job) (mode : ModeId) :
    Gives E (fun _ => True) (pushUndefined job mode) :=
  ite (fun _ => pure trivial) fun _ => push job _

theorem mismatch {expected : String} {v : Value} (h : expected ≠ "local") :
    Gives E Q (Exec.lift (Value.mismatch expected v)) := by
  intro m
  exact Signal.Covers.ordinary _ (by simpa [Cause.ordinary] using h)

end Gives

end Exec

open Outline

variable {job : Job} {starts : NodeId → Prop} {known : NodeId → FrameHandle → Prop} {o : Outline}

/-- The tasks of an agenda find the frames they need in the outline at hand. -/
def Outline.PlacedAll (p : Program) (starts : NodeId → Prop) (known : NodeId → FrameHandle → Prop)
    (o : Outline) (A : Agenda) : Prop := ∀ t ∈ A, o.Placed p starts known t

namespace Outline

variable {p : Program} {t : Task} {A B : Agenda}

@[simp] theorem placedAll_nil : o.PlacedAll p starts known [] := by simp [PlacedAll]

@[simp] theorem placedAll_cons : o.PlacedAll p starts known (t :: A) ↔
    o.Placed p starts known t ∧ o.PlacedAll p starts known A := by simp [PlacedAll]

@[simp] theorem placedAll_append : o.PlacedAll p starts known (A ++ B) ↔
    o.PlacedAll p starts known A ∧ o.PlacedAll p starts known B := by
  simp [PlacedAll, or_imp, forall_and]

theorem placedAll_units {ns : List NodeId} (h : ∀ n ∈ ns, o.Finds p starts n) :
    o.PlacedAll p starts known (ns.map .unit) := by
  intro t ht
  obtain ⟨n, hn, rfl⟩ := List.mem_map.mp ht
  exact h n hn

end Outline

namespace Exec

theorem finds_part {s : ScopeId} {n c : NodeId} (h : o.Evaluable job.program starts s n)
    (hs : job.program.standings s (job.program.tree.kind n) =
      (job.program.tree.children (job.program.tree.kind n)).map (s, ·))
    (hc : c ∈ job.program.tree.children (job.program.tree.kind n)) :
    o.Finds job.program starts c := by
  refine (h.part ?_).found
  rw [hs]
  exact List.mem_map_of_mem hc

theorem boundUnits_finds {s : ScopeId} {bounds : List NodeId}
    (h : ∀ b ∈ bounds, o.Evaluable job.program starts s b) {n : NodeId}
    (hn : some n ∈ boundUnits job.program.tree bounds) : o.Finds job.program starts n := by
  obtain ⟨b, hb, hn⟩ := List.mem_flatMap.mp hn
  cases hk : job.program.tree.kind b with
  | bound lower upper =>
    simp only [hk, List.mem_cons, List.not_mem_nil, or_false] at hn
    refine finds_part (h b hb) (by rw [hk]; rfl) ?_
    rw [hk]
    simpa [Tree.children, eq_comm] using hn
  | _ =>
    simp only [hk, List.mem_cons, List.not_mem_nil, or_false, reduceCtorEq, false_or,
      Option.some.injEq] at hn
    rw [hn]
    exact (h b hb).found

theorem indexerUnits_finds {nodes : List NodeId}
    (h : ∀ b ∈ nodes, o.Finds job.program starts b) {n : NodeId}
    (hn : some n ∈ (indexerUnits job.program.tree nodes).1) : o.Finds job.program starts n := by
  obtain ⟨b, hb, hn⟩ := List.mem_flatMap.mp hn
  obtain ⟨s, hs⟩ := h b hb
  cases hk : job.program.tree.kind b with
  | trimmer lower upper =>
    simp only [hk, List.mem_cons, List.not_mem_nil, or_false] at hn
    refine finds_part hs (by rw [hk]; rfl) ?_
    rw [hk]
    simpa [Tree.children, eq_comm] using hn
  | _ =>
    simp only [hk, List.mem_singleton, Option.some.injEq] at hn
    rw [hn]
    exact hs.found

end Exec

theorem Purpose.Leaves.placed {p : Purpose} {wanted : List (Option NodeId)} {A : Agenda}
    (h : p.Leaves wanted A) (hp : o.Serves job.program starts p)
    (hw : ∀ n, some n ∈ wanted → o.Finds job.program starts n) :
    o.PlacedAll job.program starts known A := by
  cases h with
  | nothing => exact placedAll_nil
  | next hn hr =>
    simp only [placedAll_cons, Placed, placedAll_nil, and_true]
    exact ⟨hw _ hn, hp, fun n hm => hw n (hr _ hm)⟩
  | loop h | diagonal h | matrix h =>
    subst h
    simpa [Placed, Serves] using hp

/-- What a task on values leaves to do finds the frames that the task would have found. -/
theorem Task.Leaves.placed {t : Task} {A : Agenda} (h : t.Leaves job.program.tree A)
    (hp : o.Placed job.program starts known t) : o.PlacedAll job.program starts known A := by
  cases h with
  | nothing => exact placedAll_nil
  | thenPart => simpa [Placed] using hp.1
  | elsePart => simpa [Placed] using hp.2 _ rfl
  | alternative h =>
    rcases h with h | h
    · simpa [Placed] using hp.1 _ h
    · simpa [Placed] using hp.2 _ h
  | take h => exact h.placed hp.1 hp.2
  | arguments args =>
    simp only [placedAll_append, placedAll_cons, placedAll_nil, and_true, Placed]
    exact placedAll_units hp
  | monadic op => simp [Placed]
  | indexers h => exact h.placed trivial fun _ => Exec.indexerUnits_finds hp
  | right => simpa [Placed] using hp

namespace Exec

/-- Work that is put in place of a task finds the frames it needs. -/
abbrev Places (job : Job) (starts : NodeId → Prop) (known : NodeId → FrameHandle → Prop)
    (o : Outline) (x : Exec Agenda) : Prop :=
  Gives Signal.Blameless (o.PlacedAll job.program starts known) x

variable {α : Type}

theorem Gives.places {x : Exec α} (hx : Gives Signal.Blameless (fun _ => True) x) :
    Places job starts known o (do let _ ← x; return []) :=
  hx.andThen fun _ => .pure placedAll_nil

theorem Works.places {Q : Agenda → Prop} {x : Exec Agenda} (hx : Works job Q x)
    (hQ : ∀ A, Q A → o.PlacedAll job.program starts known A) : Places job starts known o x :=
  fun m => wp_mono (hx m) (fun A _ h => hQ A h.1) fun _ _ h => h.1.blameless

theorem gather_places {p : Purpose} (hp : o.Serves job.program starts p)
    {wanted : List (Option NodeId)}
    (hw : ∀ n, some n ∈ wanted → o.Finds job.program starts n) (found : List (Option Int64)) :
    Places job starts known o (gather job p found wanted) :=
  (gather_works p found fun _ h => h).places fun _ h => h.placed hp hw

theorem orUndefined_places (mode : ModeId) {unit : Option NodeId}
    (h : ∀ n ∈ unit, o.Finds job.program starts n) :
    Places job starts known o (orUndefined job mode unit) := by
  refine (orUndefined_works mode unit).places ?_
  rintro _ (rfl | ⟨n, hn, rfl⟩)
  · exact placedAll_nil
  · simpa [Placed] using h n hn

theorem print_places (values : List Value) : Places job starts known o (print job values) := by
  have printed (values : List Value) : o.PlacedAll job.program starts known [.print values] := by
    simp [Placed]
  have emitted (f : Transput → Transput) (values : List Value) :
      Places job starts known o (do transput f; return [.print values]) :=
    (Gives.modify _).andThen fun _ => .pure (printed values)
  unfold print
  split
  · exact .pure placedAll_nil
  · split
    · exact .pure (printed _)
    · exact .pure (printed _)
    · exact .pure (printed _)
    · exact (Gives.read _).andThen fun _ => .pure (printed _)
    · exact emitted _ _
    · exact .pure (printed _)
    · exact .mismatch (by decide)
    · exact .fail rfl
    all_goals exact emitted _ _

theorem applied_placed {s : ScopeId} {n : NodeId} (h : o.Evaluable job.program starts s n)
    {op : Operator} (hv : ∀ slot ∈ op.slots, job.program.Visible s slot)
    (hu : ∀ slot ∈ op.slots, slot.level ∈ job.program.uses (job.program.tree.kind n))
    {standard : StandardOperator → Task}
    (hs : ∀ op, o.Placed job.program starts known (standard op)) (arity : Nat) :
    o.Placed job.program starts known (applied op standard arity n) := by
  cases op with
  | standard op => exact hs op
  | user slot =>
    obtain ⟨d, hd, hds⟩ := hv slot (List.mem_singleton_self _)
    exact ⟨s, h.stands, h.sees hd hds (hu slot (List.mem_singleton_self _))⟩

/-- The loop at a node will find the frames it needs. -/
theorem loop_serves {s : ScopeId} {n : NodeId} {id : LoopId} (hw : job.program.WellScoped starts)
    (h : o.Evaluable job.program starts s n) (hk : job.program.tree.kind n = .loop id) :
    o.Serves job.program starts (.loop (job.program.tree.loopParts id)) := by
  have hp := hw.proper h.stands
  rw [hk] at hp
  obtain ⟨hloop, hbody, hcounter, -⟩ := hp
  refine ⟨s, ⟨hloop, hbody, hcounter⟩, h.inside, fun c hc => ?_⟩
  have part : ((job.program.tree.loopParts id).bodyScope, c) ∈
      job.program.standings s (job.program.tree.kind n) := by
    rw [hk]
    exact List.mem_append_right _ (List.mem_map_of_mem hc)
  exact ⟨.inner h.stands part, h.supports.part part⟩

theorem elaborate_places {s : ScopeId} {n : NodeId} (hw : job.program.WellScoped starts)
    (h : o.Evaluable job.program starts s n) (hv : onValues (job.program.tree.kind n)) :
    Places job starts known o (elaborate job n) := by
  refine Gives.depth.andThen fun baseline => ?_
  have parts (hs : job.program.standings s (job.program.tree.kind n) =
      (job.program.tree.children (job.program.tree.kind n)).map (s, ·)) :=
    fun {c} hc => finds_part (c := c) h hs hc
  have hp := hw.proper h.stands
  cases hk : job.program.tree.kind n with
  | closed | conditional | integerCase | conformityCase | identifier | routineText | jump =>
    simp [hk, onValues] at hv
  | loop id =>
    have stands (c : NodeId) (hc : c ∈ (job.program.tree.loopParts id).fromPart.toList ++
        (job.program.tree.loopParts id).byPart.toList ++
        (job.program.tree.loopParts id).toPart.toList) : o.Finds job.program starts c := by
      refine (h.part (c := c) ?_).found
      rw [hk]
      exact List.mem_append_left _ (List.mem_map_of_mem hc)
    refine Gives.bind (E := Signal.Blameless) (Q := o.PlacedAll job.program starts known) ?_ fun A hA => ?_
    · refine gather_places (loop_serves hw h hk) (fun c hc => stands c ?_) []
      simpa [eq_comm, or_assoc] using hc
    · exact .pure (by simp [hA, Placed])
  | collateral units =>
    rw [hk] at parts
    refine .pure ?_
    simp only [placedAll_append, placedAll_cons, placedAll_nil, and_true, Placed]
    exact placedAll_units fun c hc => parts rfl hc
  | parallel units =>
    rw [hk] at parts
    refine .pure ?_
    simp only [placedAll_append, placedAll_cons, placedAll_nil, and_true, Placed]
    intro t ht
    obtain ⟨c, hc, ht⟩ := List.mem_flatMap.mp ht
    simp only [List.mem_cons, List.not_mem_nil, or_false] at ht
    rcases ht with rfl | rfl
    · exact parts rfl hc
    · trivial
  | literal | standard | formatText | nihil => exact (Gives.push job _).places
  | skip => exact (Gives.pushUndefined job _).places
  | modeDeclaration => exact .pure placedAll_nil
  | identityDeclaration slot value =>
    rw [hk] at parts hp
    refine .pure ?_
    simp only [placedAll_cons, placedAll_nil, and_true, Placed]
    exact ⟨parts rfl (by simp [Tree.children]),
      s, h.sees .refl hp (by simp [hk, Program.uses])⟩
  | variableDeclaration slot generator init =>
    rw [hk] at parts hp
    refine .pure ?_
    simp only [placedAll_cons, placedAll_nil, and_true, Placed]
    refine ⟨parts rfl (by simp [Tree.children]),
      ⟨s, h.sees .refl hp (by simp [hk, Program.uses])⟩, fun c hc => parts rfl ?_⟩
    exact List.mem_cons_of_mem _ (Option.mem_toList.mpr hc)
  | formula op left right =>
    rw [hk] at parts hp
    refine .pure ?_
    simp only [placedAll_cons, placedAll_nil, and_true]
    refine ⟨parts rfl (by simp [Tree.children]), parts rfl (by simp [Tree.children]),
      applied_placed h hp (fun slot hs => ?_) (fun op => ?_) 2⟩
    · rw [hk]
      exact List.mem_map_of_mem hs
    · trivial
  | monadic op operand =>
    rw [hk] at parts hp
    refine .pure ?_
    simp only [placedAll_cons, placedAll_nil, and_true]
    refine ⟨parts rfl (by simp [Tree.children]),
      applied_placed h hp (fun slot hs => ?_) (fun op => ?_) 1⟩
    · rw [hk]
      exact List.mem_map_of_mem hs
    · trivial
  | generator heap bounds =>
    have bound : ∀ b ∈ job.program.tree.list bounds, o.Evaluable job.program starts s b := by
      intro b hb
      refine h.part ?_
      rw [hk]
      exact List.mem_map_of_mem hb
    exact gather_places (p := .generate _) trivial (fun _ => boundUnits_finds bound) []
  | diagonal offset operand | rowFunction offset operand | columnFunction offset operand =>
    rw [hk] at parts
    have found : o.Finds job.program starts operand := parts rfl (by simp [Tree.children])
    have offsets (c : NodeId) (hc : some c ∈ [offset]) : o.Finds job.program starts c :=
      parts rfl (by simp [Tree.children, ← List.mem_singleton.mp hc])
    first
      | exact gather_places (p := .diagonal operand) found offsets []
      | exact gather_places (p := .matrix operand _) found offsets []
  | call primary parts' | slice primary parts' =>
    rw [hk] at parts
    refine .pure ?_
    simp only [placedAll_cons, placedAll_nil, and_true, Placed]
    exact ⟨parts rfl (by simp [Tree.children]), fun c hc => parts rfl (List.mem_cons_of_mem _ hc)⟩
  | selection | cast | transpose | coercion | assertion | andFunction | orFunction
  | identityRelation | assignation =>
    rw [hk] at parts
    refine .pure ?_
    simp only [placedAll_cons, placedAll_nil, and_true, Placed]
    repeat first | exact parts rfl (by simp [Tree.children]) | constructor
  | _ => exact .fail rfl

theorem exec_places {t : Task} (ht : t.onValues) (h : o.Placed job.program starts known t) :
    Places job starts known o (t.exec job) := (exec_works ht).places fun _ hA => hA.placed h

end Exec

end Algol68
