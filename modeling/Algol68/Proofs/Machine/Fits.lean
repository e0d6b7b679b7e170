import Algol68.Proofs.Machine.Holds
import Algol68.Proofs.Run.Session
import Algol68.Proofs.Value.Fits

/-! The rows and strings in a machine. Every task keeps rows well-formed. Only displays and string
denotations bring in objects that are larger than those that are there and than the largest that may be
made. -/

namespace Algol68

open Checked (Gives)

variable {N : ℕ∞} {D : ModeId → Prop} {job : Job} {m : Machine}

/-- All rows and strings in the locals of some frames fit. -/
def FrameStack.Fits (N : ℕ∞) (s : FrameStack) : Prop := ∀ f ∈ s.frames, ∀ v ∈ f.locals, v.Fits N

/-- All rows and strings on the stack, in the locals and in the store fit. -/
structure Machine.Fits (N : ℕ∞) (m : Machine) : Prop where
  stack : ∀ v ∈ m.stack, v.Fits N
  locals : m.frames.Fits N
  store : m.store.Fits N

/-- All rows and strings in a task fit, and the display that it makes, if any, is of one of some modes. -/
structure Task.FitsIn (N : ℕ∞) (D : ModeId → Prop) (t : Task) : Prop where
  values : ∀ v ∈ t.values, v.Fits N
  display : ∀ mode baseline, t = .aggregate mode baseline → D mode

/-- All rows and strings in the tasks of an agenda fit, and its displays are of some modes. -/
def Agenda.Fits (N : ℕ∞) (D : ModeId → Prop) (A : Agenda) : Prop := ∀ t ∈ A, t.FitsIn N D

/-- The tasks that have no values and make no displays. -/
def Task.Bare : Task → Prop
  | .store .. | .take _ | .call .. | .enterRoutine .. | .print _ | .aggregate .. => False
  | _ => True

theorem Task.Bare.fitsIn {t : Task} (h : t.Bare) : t.FitsIn N D := by
  cases t with
  | store | take | call | enterRoutine | print | aggregate => exact h.elim
  | _ => exact ⟨List.forall_mem_nil _, nofun⟩

theorem Agenda.fits_of_bare {A : Agenda} (h : ∀ t ∈ A, t.Bare) : A.Fits N D :=
  fun t ht => (h t ht).fitsIn

theorem Agenda.Fits.append {A B : Agenda} (hA : A.Fits N D) (hB : B.Fits N D) :
    Agenda.Fits N D (A ++ B) := by
  intro t ht
  rcases List.mem_append.mp ht with ht | ht
  · exact hA t ht
  · exact hB t ht

/-- All rows and strings in what integers are gathered for fit. -/
def Purpose.FitsIn (N : ℕ∞) (p : Purpose) : Prop := ∀ base trimmers, p = .slice base trimmers → base.Fits N

theorem Purpose.fitsIn_iff {p : Purpose} {found : List (Option Int64)} {wanted : List (Option NodeId)} :
    p.FitsIn N ↔ ∀ v ∈ (Task.take ⟨p, found, wanted⟩).values, v.Fits N := by
  cases p <;> simp [Purpose.FitsIn, Task.values]

theorem Program.freshLocals_fits (p : Program) (scope : ScopeId) :
    ∀ v ∈ p.freshLocals scope, v.Fits N := by
  intro v hv
  obtain ⟨mode, -, rfl⟩ := Array.mem_map.mp hv
  exact Value.undefinedOf_fits _ _

namespace FrameStack.Fits

variable {s : FrameStack}

theorem truncate (h : s.Fits N) (n : Nat) : (s.truncate n).Fits N := forall_locals_truncate h n

theorem push (h : s.Fits N) (scope : ScopeId) (level : Nat) (link : Option Nat)
    {locals : Array Value} (hl : ∀ v ∈ locals, v.Fits N) : (s.push scope level link locals).Fits N :=
  forall_locals_push h scope level link hl

theorem modify (h : s.Fits N) (i : Nat) {g : Frame → Frame}
    (hg : ∀ f : Frame, (∀ v ∈ f.locals, v.Fits N) → ∀ v ∈ (g f).locals, v.Fits N) :
    (s.modify i g).Fits N := forall_locals_modify h i hg

theorem setLocal (h : s.Fits N) (i k : Nat) {v : Value} (hv : v.Fits N) :
    (s.setLocal i k v).Fits N := forall_locals_setLocal h i k hv

theorem load (h : s.Fits N) (slot : Slot) : Gives (Value.Fits N) (s.load slot) :=
  fun _ hv => of_load h Value.fits_void hv

end FrameStack.Fits

namespace Machine.Fits

theorem with_frames (h : m.Fits N) {s : FrameStack} (hs : s.Fits N) :
    Machine.Fits N { m with frames := s } := ⟨h.stack, hs, h.store⟩

theorem with_stack (h : m.Fits N) {S : Array Value} (hS : ∀ v ∈ S, v ∈ m.stack) :
    Machine.Fits N { m with stack := S } := ⟨fun v hv => h.stack v (hS v hv), h.locals, h.store⟩

end Machine.Fits

/-! Operations that keep rows and strings fitting, and what they result in. -/

/-- Started where all rows and strings fit, an operation ends where they do, with a result that has a
property. -/
def Exec.Fitting {α : Type} (N : ℕ∞) (G : α → Prop) (x : Exec α) : Prop :=
  ∀ m : Machine, m.Fits N → wp x (fun a m' => m'.Fits N ∧ G a) (fun _ m' => m'.Fits N) m

namespace Exec.Fitting

variable {α β : Type} {G : α → Prop} {H : β → Prop}

theorem pure {a : α} (h : G a) : Fitting N G (Pure.pure a) := fun _ hm => ⟨hm, h⟩

theorem fail (c : Cause) : Fitting N G (fail c : Exec α) := fun _ hm => hm

theorem throw (s : Signal) : Fitting N G (throw s : Exec α) := fun _ hm => hm

theorem bind {x : Exec α} {f : α → Exec β} (hx : Fitting N G x) (hf : ∀ a, G a → Fitting N H (f a)) :
    Fitting N H (x >>= f) := by
  intro m hm
  rw [wp_bind]
  exact wp_mono (hx m hm) (fun a m' ha => hf a ha.2 m' ha.1) fun _ _ h => h

theorem get : Fitting N (Machine.Fits N) get := fun _ hm => ⟨hm, hm⟩

theorem depth : Fitting N (fun _ => True) depth := fun _ hm => ⟨hm, trivial⟩

theorem lift {c : Checked α} (h : Gives G c) : Fitting N G (lift c) := by
  intro m hm
  rw [wp_lift]
  exact ⟨fun a ha => ⟨hm, h a ha⟩, fun _ _ => hm⟩

theorem frames {f : FrameStack → FrameStack} (h : ∀ s : FrameStack, s.Fits N → (f s).Fits N) :
    Fitting N (fun _ => True) (modify fun m => { m with frames := f m.frames }) :=
  fun m hm => ⟨hm.with_frames (h m.frames hm.locals), trivial⟩

theorem modify {f : Machine → Machine} (h : ∀ m : Machine, m.Fits N → (f m).Fits N) :
    Fitting N (fun _ => True) (modify f) := fun m hm => ⟨h m hm, trivial⟩

theorem push (job : Job) {v : Value} (hv : v.Fits N) : Fitting N (fun _ => True) (push job v) := by
  intro m hm
  rw [wp_push]
  refine ⟨fun _ => hm, fun _ => ⟨⟨fun w hw => ?_, hm.locals, hm.store⟩, trivial⟩⟩
  rcases Array.mem_push.mp hw with hw | rfl
  · exact hm.stack w hw
  · exact hv

theorem pop : Fitting N (Value.Fits N) pop := by
  intro m hm
  rw [wp_pop]
  refine ⟨fun S v hS => ?_, fun _ => hm⟩
  have old := hm.stack
  rw [hS] at old
  exact ⟨⟨fun w hw => old w (by simp [hw]), hm.locals, hm.store⟩, old v (by simp)⟩

theorem popMany (n : Nat) : Fitting N (fun vs : List Value => ∀ v ∈ vs, v.Fits N) (popMany n) := by
  intro m hm
  rw [wp_popMany]
  refine ⟨fun _ => hm, fun _ => ⟨hm.with_stack fun v hv => Session.mem_of_mem_shrink hv, ?_⟩⟩
  exact fun v hv => hm.stack v (Array.mem_def.mpr (List.mem_of_mem_drop hv))

theorem cut (baseline : Nat) : Fitting N (fun _ => True) (cut baseline) :=
  modify fun _ hm => hm.with_stack fun _ hv => Session.mem_of_mem_shrink hv

theorem popInt : Fitting N (fun _ => True) popInt := pop.bind fun _ _ => lift fun _ _ => trivial

theorem popBool : Fitting N (fun _ => True) popBool := pop.bind fun _ _ => lift fun _ _ => trivial

theorem popRow : Fitting N (Row.Fits N (Value.Fits N)) popRow := by
  refine pop.bind fun v hv => ?_
  split
  · next n =>
    exact get.bind fun m hm => lift ((hm.store.get n).bind fun w hw => Value.asRow_gives hw)
  · exact lift (Value.asRow_gives hv)

theorem pushUndefined (job : Job) (mode : ModeId) :
    Fitting N (fun _ => True) (pushUndefined job mode) := by
  rw [Exec.pushUndefined]
  split
  · exact pure trivial
  · exact push job (Value.undefinedOf_fits _ _)

theorem enterAt (job : Job) (scope : ScopeId) (link : Nat) :
    Fitting N (fun _ => True) (enterAt job scope link) := by
  intro m hm
  rw [wp_enterAt]
  refine ⟨fun _ _ => ⟨hm.with_frames ?_, trivial⟩, fun _ _ => hm⟩
  exact hm.locals.push _ _ _ (job.program.freshLocals_fits scope)

theorem enter (job : Job) (scope : ScopeId) : Fitting N (fun _ => True) (enter job scope) :=
  get.bind fun _ _ => (lift (G := fun _ => True) fun _ _ => trivial).bind fun link _ =>
    enterAt job scope link

theorem load (slot : Slot) : Fitting N (Value.Fits N) (load slot) :=
  get.bind fun _ hm => lift (hm.locals.load slot)

theorem store (slot : Slot) {v : Value} (hv : v.Fits N) : Fitting N (fun _ => True) (store slot v) := by
  intro m hm
  rw [wp_store]
  exact ⟨fun i _ => ⟨hm.with_frames (hm.locals.setLocal i _ hv), trivial⟩, fun _ _ => hm⟩

theorem allocate {v : Value} (hv : v.Fits N) : Fitting N (fun _ => True) (allocate v) :=
  fun _ hm => ⟨⟨hm.stack, hm.locals, hm.store.allocate hv⟩, trivial⟩

theorem read (n : Name) : Fitting N (Value.Fits N) (read n) :=
  get.bind fun _ hm => lift (hm.store.get n)

theorem assign (n : Name) {v : Value} (hv : v.Fits N) : Fitting N (fun _ => True) (assign n v) := by
  intro m hm
  rw [wp_assign]
  refine ⟨fun c hc => ⟨⟨hm.stack, hm.locals, ?_⟩, trivial⟩, fun _ _ => hm⟩
  exact hm.store.put _ (hm.store.assigned n hv c hc)

theorem count (f : Counters → Counters) : Fitting N (fun _ => True) (count f) :=
  modify fun _ hm => ⟨hm.stack, hm.locals, hm.store⟩

theorem annotate (f : Annotations → Annotations) : Fitting N (fun _ => True) (annotate f) :=
  modify fun _ hm => ⟨hm.stack, hm.locals, hm.store⟩

theorem transput (f : Transput → Transput) : Fitting N (fun _ => True) (transput f) :=
  modify fun _ hm => ⟨hm.stack, hm.locals, hm.store⟩

theorem done {A : Agenda} (h : ∀ t ∈ A, t.Bare) : Fitting N (Agenda.Fits N D) (Pure.pure A) :=
  pure (Agenda.fits_of_bare h)

theorem nothing : Fitting N (Agenda.Fits N D) (Pure.pure []) := done (by simp)

theorem last {x : Exec α} (hx : Fitting N G x) :
    Fitting N (Agenda.Fits N D) (do let _ ← x; return []) := hx.bind fun _ _ => nothing

theorem checked (c : Checked α) : Fitting N (fun _ => True) (Exec.lift c) := lift fun _ _ => trivial

/-! Tasks that evaluate units and clauses. -/

theorem unit (node : NodeId) : Fitting N (Agenda.Fits N D) (unit node) := by
  refine (count _).bind fun _ _ => get.bind fun m _ => ?_
  split
  · exact done (by simp [Task.Bare])
  · refine done fun t ht => ?_
    rw [List.mem_cons, List.mem_singleton] at ht
    rcases ht with rfl | rfl
    · split <;> trivial
    · trivial
  · exact done (by simp [Task.Bare])

theorem enclosed (scope : ScopeId) {work : Agenda} (hw : ∀ t ∈ work, t.Bare) :
    Fitting N (Agenda.Fits N D) (enclosed job scope work) := by
  refine (enter job scope).bind fun before _ => done fun t ht => ?_
  rcases List.mem_append.mp ht with ht | ht
  · exact hw t ht
  · obtain rfl := List.mem_singleton.mp ht
    trivial

theorem alternatives (node : NodeId) (items : List NodeId) :
    Fitting N (fun _ => True) (alternatives job node items) := by
  refine get.bind fun m _ => ?_
  split
  · exact pure trivial
  · exact (annotate _).bind fun _ _ => (annotate _).bind fun _ _ => pure trivial

theorem linearChain (serial : NodeId) (items : List NodeId) :
    Fitting N (fun _ => True) (linearChain job serial items) := by
  refine get.bind fun m _ => ?_
  split
  · exact (count _).bind fun _ _ => pure trivial
  · refine (annotate _).bind fun _ _ => (count _).bind fun _ _ => ?_
    exact (annotate _).bind fun _ _ => pure trivial

theorem announce (serial : NodeId) (items : List NodeId) (baseline : Nat) :
    Fitting N (fun _ => True) (announce serial items baseline) := by
  refine get.bind fun m _ => (checked _).bind fun index _ => (checked _).bind fun handle _ => ?_
  refine bind (frames fun s hs => hs.modify index ?_) fun _ _ => pure trivial
  exact fun _ hf => hf

theorem retract (c : LabelledClause) : Fitting N (fun _ => True) (retract c) := by
  refine frames fun s hs => hs.modify c.frame ?_
  exact fun _ hf => hf

theorem clause (node : NodeId) (enquiry : Bool) :
    Fitting N (Agenda.Fits N D) (clause job node enquiry) := by
  have steps (chain : List ChainStep) (baseline : Nat) (ending : Agenda)
      (he : ∀ t ∈ ending, t.Bare) :
      ∀ t ∈ chain.map (·.task baseline) ++ ending, t.Bare := by
    intro t ht
    rcases List.mem_append.mp ht with ht | ht
    · exact ChainStep.forall_task (P := Task.Bare) (fun _ => trivial) trivial chain t ht
    · exact he t ht
  simp only [Exec.clause]
  split
  · refine depth.bind fun baseline _ => ?_
    have ending : ∀ t ∈ (if !enquiry && job.program.tree.mode node = .void then
        [Task.cut baseline] else []), t.Bare := by
      split <;> simp [Task.Bare]
    split
    · refine (announce node _ baseline).bind fun c _ => done (steps _ _ _ ?_)
      simpa [Task.Bare] using ending
    · exact (linearChain node _).bind fun chain _ => done (steps _ _ _ ending)
  · exact done (by simp [Task.Bare])

theorem orUndefined (mode : ModeId) (unit : Option NodeId) :
    Fitting N (Agenda.Fits N D) (orUndefined job mode unit) := by
  cases unit with
  | some unit => exact done (by simp [Task.Bare])
  | none => exact (pushUndefined job mode).last

theorem conform (units : List NodeId) (outPart : Option NodeId) (mode : ModeId) :
    Fitting N (Agenda.Fits N D) (conform job units outPart mode) := by
  refine pop.bind fun v hv => ?_
  split
  · next variant payload =>
    refine (checked _).bind fun chosen _ => ?_
    split
    · next a specifier =>
      refine (enter job a.scope).bind fun before _ => pure ?_
      have bound : (if (job.oracle.variants specifier).isSome then .union variant payload
          else payload : Value).Fits N := by
        split
        · exact hv
        · exact Value.fits_union.mp hv
      refine Agenda.Fits.append (fun t ht => ?_) (Agenda.fits_of_bare (by simp [Task.Bare]))
      obtain ⟨slot, -, rfl⟩ := List.mem_map.mp ht
      exact ⟨List.forall_mem_singleton.mpr bound, nofun⟩
    · have undefined := @orUndefined N D job mode outPart
      intro m hm
      simp only [wp_bind, wp_ite, wp_fail]
      exact ⟨fun _ => hm, fun _ => undefined m hm⟩
  · exact fail _
  · exact lift (.mismatch _ _)

/-! Tasks that work on gathered integers. -/

theorem conclude (hl : (job.config.objectLimit : ℕ∞) ≤ N) (found : List (Option Int64)) {p : Purpose}
    (hp : p.FitsIn N) : Fitting N (Agenda.Fits N D) (conclude job found p) := by
  cases p with
  | loop parts => exact done (by simp [Task.Bare])
  | generate target =>
    refine (lift (Value.initial_gives hl target _)).bind fun v hv => ?_
    exact (allocate hv).bind fun n _ => (push job (Value.fits_name n)).last
  | slice base trimmers =>
    refine get.bind fun m hm => ?_
    have sliced := Value.slice_gives hm.store (hp base trimmers rfl) (Indexer.ofParts trimmers found)
    dsimp only
    split
    · next v hv => exact (push job (sliced v hv)).last
    · exact throw _
  | diagonal operand => exact done (by simp [Task.Bare])
  | matrix operand column => exact done (by simp [Task.Bare])

theorem gather (hl : (job.config.objectLimit : ℕ∞) ≤ N) {p : Purpose} (hp : p.FitsIn N)
    (found : List (Option Int64)) (wanted : List (Option NodeId)) :
    Fitting N (Agenda.Fits N D) (gather job p found wanted) := by
  induction wanted generalizing found with
  | nil => exact conclude hl found hp
  | cons unit wanted ih =>
    cases unit with
    | none => exact ih _
    | some unit =>
      refine pure fun t ht => ?_
      rw [List.mem_cons, List.mem_singleton] at ht
      rcases ht with rfl | rfl
      · exact Task.Bare.fitsIn trivial
      · exact ⟨Purpose.fitsIn_iff.mp hp, nofun⟩

theorem take (hl : (job.config.objectLimit : ℕ∞) ≤ N) {g : Gathering} (hp : g.purpose.FitsIn N) :
    Fitting N (Agenda.Fits N D) (take job g) :=
  popInt.bind fun _ _ => gather hl hp _ _

theorem indexers (hl : (job.config.objectLimit : ℕ∞) ≤ N) (nodes : List NodeId) :
    Fitting N (Agenda.Fits N D) (indexers job nodes) := by
  refine pop.bind fun base hv => gather hl ?_ _ _
  rintro _ _ ⟨⟩
  exact hv

/-! Loops. -/

theorem iteration_bare (i : Iteration) : ∀ t ∈ iterate.iteration i, t.Bare := by
  unfold iterate.iteration
  split <;> simp [Task.Bare]

theorem enterLoop (i : Iteration) : Fitting N (Agenda.Fits N D) (enterLoop job i) :=
  (enter job _).bind fun _ _ => done (by simp [Task.Bare])

theorem enterBody (i : Iteration) : Fitting N (Agenda.Fits N D) (enterBody job i) :=
  (enter job _).bind fun _ _ => done (by simp [Task.Bare])

theorem setCounter (i : Iteration) : Fitting N (fun _ => True) (setCounter i) := by
  unfold Exec.setCounter
  split
  · exact store _ (Value.fits_int _)
  · exact pure trivial

theorem resetLocals (index : Nat) : Fitting N (fun _ => True) (resetLocals job index) := by
  refine frames fun s hs => hs.modify index fun f hf => ?_
  refine FrameStack.forall_mem_mapIdx hf fun k v hv => ?_
  split
  · exact Value.undefinedOf_fits _ _
  · exact hv

theorem renewBody (i : Iteration) : Fitting N (fun _ => True) (renewBody job i) := by
  rw [Exec.renewBody]
  split
  · exact pure trivial
  · exact resetLocals _

theorem iterate (i : Iteration) : Fitting N (Agenda.Fits N D) (iterate job i) := by
  rw [Exec.iterate]
  split
  · refine (setCounter i).bind fun _ _ => (renewBody i).bind fun _ _ => done ?_
    split
    · simp [Task.Bare]
    · exact iteration_bare _
  · exact nothing

theorem afterWhile (i : Iteration) : Fitting N (Agenda.Fits N D) (afterWhile i) := by
  refine popBool.bind fun b _ => done ?_
  split
  · exact iteration_bare i
  · simp

theorem afterUntil (i : Iteration) : Fitting N (Agenda.Fits N D) (afterUntil i) := by
  refine popBool.bind fun b _ => done ?_
  split <;> simp [Task.Bare]

theorem advance (i : Iteration) : Fitting N (Agenda.Fits N D) (advance i) := by
  rw [Exec.advance]
  split
  · split
    · exact done (by simp [Task.Bare])
    · exact fail _
  · exact done (by simp [Task.Bare])

/-! Calls. -/

theorem print {values : List Value} (hv : ∀ v ∈ values, v.Fits N) :
    Fitting N (Agenda.Fits N D) (print job values) := by
  have printed {vs : List Value} (hvs : ∀ v ∈ vs, v.Fits N) :
      Fitting N (Agenda.Fits N D) (Pure.pure [.print vs]) :=
    pure (List.forall_mem_singleton.mpr ⟨hvs, nofun⟩)
  cases values with
  | nil => exact nothing
  | cons v rest =>
    obtain ⟨hv, hrest⟩ := List.forall_mem_cons.mp hv
    have emitted (f : Transput → Transput) :
        Fitting N (Agenda.Fits N D) (do Exec.transput f; return [.print rest]) :=
      (transput f).bind fun _ _ => printed hrest
    cases v with
    | row r =>
      refine printed (List.forall_mem_append.mpr ⟨fun w hw => ?_, hrest⟩)
      exact (Value.fits_row.mp hv).elements w (Array.mem_def.mpr hw)
    | struct fields =>
      refine printed (List.forall_mem_append.mpr ⟨fun w hw => ?_, hrest⟩)
      exact Value.fits_struct.mp hv w (Array.mem_def.mpr hw)
    | union variant payload =>
      exact printed (List.forall_mem_cons.mpr ⟨Value.fits_union.mp hv, hrest⟩)
    | name n => exact (read n).bind fun w hw => printed (List.forall_mem_cons.mpr ⟨hw, hrest⟩)
    | procedure p =>
      cases p with
      | standard p =>
        cases p with
        | newline => exact emitted _
        | print => exact printed hrest
      | routine text environ => exact lift (.mismatch _ _)
    | undefined mode => exact fail _
    | _ => exact emitted _

theorem callRoutine (text : NodeId) (environ : FrameHandle) {args : List Value}
    (ha : ∀ v ∈ args, v.Fits N) (site : NodeId) :
    Fitting N (Agenda.Fits N D) (callRoutine job text environ args site) := by
  have called (scope : ScopeId) (body : NodeId) :
      Agenda.Fits N D [.enterRoutine scope environ.index args body, .endCall] := by
    intro t ht
    rw [List.mem_cons, List.mem_singleton] at ht
    rcases ht with rfl | rfl
    · exact ⟨ha, nofun⟩
    · exact Task.Bare.fitsIn trivial
  intro m hm
  simp only [Exec.callRoutine, wp_bind, wp_get, wp_ite, wp_fail]
  refine ⟨fun _ => hm, fun _ => ?_⟩
  split
  · next scope params body _ => exact ⟨⟨hm.stack, hm.locals, hm.store⟩, called scope body⟩
  · exact hm

theorem callValue (callee : Value) {args : List Value} (ha : ∀ v ∈ args, v.Fits N) (site : NodeId) :
    Fitting N (Agenda.Fits N D) (callValue job callee args site) := by
  unfold Exec.callValue
  split
  · next p =>
    cases p with
    | print => exact pure (List.forall_mem_singleton.mpr ⟨ha, nofun⟩)
    | newline => exact (transput _).last
  · exact callRoutine _ _ ha site
  · exact fail _
  · exact fail _
  · exact lift (.mismatch _ _)

theorem enterRoutine (scope : ScopeId) (environ : Nat) {args : List Value}
    (ha : ∀ v ∈ args, v.Fits N) (body : NodeId) :
    Fitting N (Agenda.Fits N D) (enterRoutine job scope environ args body) := by
  refine (enterAt job scope environ).bind fun before _ => ?_
  refine bind (frames fun s hs => hs.modify before fun f hf => ?_) fun _ _ =>
    done (by simp [Task.Bare])
  refine FrameStack.forall_mem_mapIdx hf fun k v hv => ?_
  rw [List.getD_eq_getElem?_getD]
  cases hw : args[k]? with
  | none => exact hv
  | some w => exact ha w (List.mem_of_getElem? hw)

theorem arguments (args : List NodeId) (site : NodeId) :
    Fitting N (Agenda.Fits N D) (arguments args site) := by
  refine pop.bind fun callee hv => pure (Agenda.Fits.append (Agenda.fits_of_bare ?_) ?_)
  · simp [Task.Bare]
  · exact List.forall_mem_singleton.mpr ⟨List.forall_mem_singleton.mpr hv, nofun⟩

theorem operate (slot : Slot) (arity : Nat) (site : NodeId) :
    Fitting N (Agenda.Fits N D) (operate job slot arity site) :=
  (popMany arity).bind fun _ ha => (load slot).bind fun v _ => callValue v ha site

/-! Units. -/

theorem declare (slot : Slot) (init : Option NodeId) :
    Fitting N (Agenda.Fits N D) (declare slot init) := by
  refine pop.bind fun v hv => (checked _).bind fun name _ => (store slot hv).bind fun _ _ => ?_
  split <;> exact done (by simp [Task.Bare])

theorem assignation (job : Job) : Fitting N (fun _ => True) (assignation job) :=
  pop.bind fun _ hv => pop.bind fun _ hd => (checked _).bind fun n _ =>
    (assign n hv).bind fun _ _ => push job hd

theorem identity (positive : Bool) : Fitting N (fun _ => True) (identity job positive) :=
  pop.bind fun _ _ => pop.bind fun _ _ => (checked _).bind fun _ _ => push job (Value.fits_bool _)

theorem dyadic (hl : (job.config.objectLimit : ℕ∞) ≤ N) (op : StandardOperator) :
    Fitting N (fun _ => True) (dyadic job op) :=
  pop.bind fun _ hw => pop.bind fun _ hv =>
    (lift (StandardOperator.dyadic_gives hl hv hw)).bind fun _ hr => push job hr

theorem monadic (op : StandardOperator) : Fitting N (Agenda.Fits N D) (monadic job op) := by
  refine pop.bind fun v hv => ?_
  split
  · exact (read _).bind fun w hw => (push job hw).bind fun _ _ => done (by simp [Task.Bare])
  · exact (read _).bind fun w hw => (push job hw).bind fun _ _ => done (by simp [Task.Bare])
  · exact (lift (StandardOperator.monadic_gives hv)).bind fun w hw => (push job hw).last

theorem coerce (h₁ : 1 ≤ N) (kind : CoercionKind) (node operand : NodeId) (baseline : Nat) :
    Fitting N (Agenda.Fits N D) (coerce job kind node operand baseline) := by
  cases kind with
  | void => exact (cut baseline).last
  | deprocedure => exact pop.bind fun v _ => callValue v (List.forall_mem_nil _) node
  | dereference =>
    refine pop.bind fun v _ => (checked _).bind fun n _ => (read n).bind fun w hw => ?_
    exact (push job hw).last
  | unite =>
    refine pop.bind fun v hv => ?_
    split
    · exact (push job hv).last
    · exact (push job (Value.fits_union.mpr hv)).last
  | widen =>
    refine pop.bind fun v hv => ?_
    split
    · exact (push job (Value.fits_real _)).last
    · exact (push job (Value.fits_real _)).last
    · exact (lift (G := fun _ => True) (.mismatch _ _)).last
  | row => exact pop.bind fun v hv => (push job (Value.rowed_fits h₁ hv _)).last

theorem shortCircuit (right : NodeId) (conjunction : Bool) :
    Fitting N (Agenda.Fits N D) (shortCircuit job right conjunction) := by
  refine popBool.bind fun left _ => ?_
  split
  · exact done (by simp [Task.Bare])
  · exact (push job (Value.fits_bool _)).last

theorem yields (mode : ModeId) (baseline : Nat) : Fitting N (fun _ => True) (yields mode baseline) := by
  intro m hm
  simp only [Exec.yields, wp_bind, wp_depth, wp_ite, wp_fail, wp_pure]
  exact ⟨fun _ => hm, fun _ => ⟨hm, trivial⟩⟩

/-- A row made of a row from the stack. -/
theorem onRow {k : Row Value → Checked (Row Value)}
    (hk : ∀ r : Row Value, r.Fits N (Value.Fits N) → Gives (Row.Fits N (Value.Fits N)) (k r)) :
    Fitting N (Agenda.Fits N D) (do Exec.push job (.row (← Exec.lift (k (← Exec.popRow)))); return []) :=
  popRow.bind fun r hr => (lift (hk r hr)).bind fun _ hs => (push job (Value.fits_row.mpr hs)).last

/-- A node whose denotation, if it is one, fits, and whose display, if it is one, is of one of the modes. -/
theorem elaborate (hl : (job.config.objectLimit : ℕ∞) ≤ N) (node : NodeId)
    (hd : ∀ l, job.program.tree.kind node = .literal l → (valueOf job l).Fits N)
    (hD : ∀ units, job.program.tree.kind node = .collateral units → D (job.program.tree.mode node)) :
    Fitting N (Agenda.Fits N D) (elaborate job node) := by
  refine depth.bind fun baseline _ => ?_
  have yielded {x : Exec Agenda} (hx : Fitting N (Agenda.Fits N D) x) : Fitting N (Agenda.Fits N D)
      (do return (← x) ++ [.yields (job.program.tree.mode node) baseline]) :=
    hx.bind fun _ hA => pure (hA.append (Agenda.fits_of_bare (by simp [Task.Bare])))
  have gathered {p : Purpose} (found : List (Option Int64)) (wanted : List (Option NodeId))
      (hp : (Task.take ⟨p, found, wanted⟩).values = []) :
      Fitting N (Agenda.Fits N D) (Exec.gather job p found wanted) :=
    gather hl (Purpose.fitsIn_iff.mpr (by rw [hp]; exact List.forall_mem_nil _)) found wanted
  cases hk : job.program.tree.kind node with
  | closed scope | conditional scope => exact yielded (enclosed scope (by simp [Task.Bare]))
  | integerCase scope | conformityCase scope =>
    exact (alternatives node _).bind fun _ _ => yielded (enclosed scope (by simp [Task.Bare]))
  | loop id => exact yielded (gathered _ _ rfl)
  | collateral units =>
    refine pure (Agenda.Fits.append (Agenda.fits_of_bare ?_) fun t ht => ?_)
    · simp [Task.Bare]
    · rw [List.mem_cons, List.mem_singleton] at ht
      rcases ht with rfl | rfl
      · refine ⟨List.forall_mem_nil _, ?_⟩
        rintro _ _ ⟨⟩
        exact hD units hk
      · exact Task.Bare.fitsIn trivial
  | parallel units =>
    refine done fun t ht => ?_
    simp only [List.mem_append, List.mem_flatMap, List.mem_cons, List.not_mem_nil, or_false] at ht
    rcases ht with ⟨u, -, rfl | rfl⟩ | rfl <;> trivial
  | literal l => exact (push job (hd l hk)).last
  | identifier slot => exact (load slot).bind fun v hv => (push job hv).last
  | standard p => exact (push job (Value.fits_procedure _)).last
  | formatText tag => exact (push job (Value.fits_format _)).last
  | nihil => exact (push job Value.fits_nil).last
  | skip => exact (pushUndefined job _).last
  | routineText scope params body =>
    exact get.bind fun _ _ => (checked _).bind fun _ _ => (push job (Value.fits_procedure _)).last
  | generator heap bounds => exact gathered _ _ rfl
  | formula op left right => cases op <;> exact done (by simp [applied, Task.Bare])
  | monadic op operand => cases op <;> exact done (by simp [applied, Task.Bare])
  | diagonal offset operand => exact gathered _ _ rfl
  | rowFunction offset operand => exact gathered _ _ rfl
  | columnFunction offset operand => exact gathered _ _ rfl
  | jump id =>
    intro m hm
    exact wp_mono (jump_still id) (fun _ _ h => h.elim) fun _ m' hm' => hm' ▸ hm
  | separator | exit | punct | serialClause | group | declarationList | labeled | trimmer | bound
  | conformityAlternative => exact fail _
  | _ => exact done (by simp [Task.Bare])

end Exec.Fitting

namespace Exec

theorem aggregate_fits (hm : m.Fits N) {mode : ModeId} {baseline : Nat}
    (hd : mode ≠ .void → Gives (Value.Fits N)
      (Value.display job.program.modes mode (m.stack.toList.drop baseline))) :
    wp (aggregate job mode baseline) (fun _ m' => m'.Fits N) (fun _ m' => m'.Fits N) m := by
  rw [aggregate, wp_ite]
  refine ⟨fun _ => ?_, fun hmode => ?_⟩
  · exact wp_mono (Fitting.cut baseline m hm) (fun _ _ h => h.1) fun _ _ h => h
  · simp only [wp_bind, wp_depth, wp_ite, wp_fail, wp_popMany]
    refine ⟨fun _ => hm, fun hb => ⟨fun _ => hm, fun _ => ?_⟩⟩
    have hpos : m.stack.size - (m.stack.size - baseline) = baseline := by omega
    rw [hpos]
    have rest : Machine.Fits N { m with stack := m.stack.shrink baseline } :=
      hm.with_stack fun _ hv => Session.mem_of_mem_shrink hv
    rw [wp_lift]
    refine ⟨fun v hv => ?_, fun _ _ => rest⟩
    exact wp_mono (Fitting.push job (hd hmode v hv) _ rest) (fun _ _ h => h.1) fun _ _ h => h

/-- A step keeps all rows and strings fitting, provided the denotation or the display it evaluates does. -/
theorem exec_fits (h₁ : 1 ≤ N) (hl : (job.config.objectLimit : ℕ∞) ≤ N) (hm : m.Fits N) {t : Task}
    (ht : t.FitsIn N D)
    (hD : ∀ node units, job.program.tree.kind node = .collateral units → D (job.program.tree.mode node))
    (hlit : ∀ node l, t = .elaborate node → job.program.tree.kind node = .literal l →
      (valueOf job l).Fits N)
    (hdisplay : ∀ mode baseline, t = .aggregate mode baseline → mode ≠ .void →
      Gives (Value.Fits N) (Value.display job.program.modes mode (m.stack.toList.drop baseline))) :
    wp (t.exec job) (fun work m' => m'.Fits N ∧ work.Fits N D) (fun _ m' => m'.Fits N) m := by
  have fitting {x : Exec Agenda} (hx : Fitting N (Agenda.Fits N D) x) :
      wp x (fun work m' => m'.Fits N ∧ work.Fits N D) (fun _ m' => m'.Fits N) m := hx m hm
  cases t with
  | unit node => exact fitting (.unit node)
  | elaborate node => exact fitting (.elaborate hl node (fun l => hlit node l rfl) (hD node))
  | settle node => exact fitting (Fitting.annotate _).last
  | within node => exact fitting .nothing
  | yields mode baseline => exact fitting (Fitting.yields mode baseline).last
  | cut baseline => exact fitting (Fitting.cut baseline).last
  | leave depth => exact fitting (Fitting.frames fun s hs => hs.truncate depth).last
  | clause node enquiry => exact fitting (.clause node enquiry)
  | labelled c => exact fitting (Fitting.retract c).last
  | branch thenPart elsePart mode =>
    refine fitting (Fitting.popBool.bind fun b _ => ?_)
    split
    · exact .done (by simp [Task.Bare])
    · exact .orUndefined mode elsePart
  | choose units outPart mode =>
    exact fitting (Fitting.popInt.bind fun n _ => .orUndefined mode _)
  | conform units outPart mode => exact fitting (.conform units outPart mode)
  | store slot v =>
    exact fitting (Fitting.store slot (ht.values v (List.mem_singleton_self v))).last
  | bind slot =>
    exact fitting (Fitting.pop.bind fun v hv => (Fitting.store slot hv).last)
  | declare slot init => exact fitting (.declare slot init)
  | initialise name =>
    exact fitting (Fitting.pop.bind fun v hv => (Fitting.assign name hv).last)
  | assign => exact fitting (Fitting.assignation job).last
  | take g => exact fitting (.take hl (Purpose.fitsIn_iff.mpr ht.values))
  | enterLoop i => exact fitting (.enterLoop i)
  | enterBody i => exact fitting (.enterBody i)
  | iterate i => exact fitting (.iterate i)
  | afterWhile i => exact fitting (.afterWhile i)
  | afterUntil i => exact fitting (.afterUntil i)
  | advance i => exact fitting (.advance i)
  | arguments args site => exact fitting (.arguments args site)
  | call callee count site =>
    exact fitting ((Fitting.popMany count).bind fun args ha => .callValue callee ha site)
  | operate slot count site => exact fitting (.operate slot count site)
  | enterRoutine scope environ args body => exact fitting (.enterRoutine scope environ ht.values body)
  | endCall => exact ⟨⟨hm.stack, hm.locals, hm.store⟩, List.forall_mem_nil _⟩
  | print values => exact fitting (.print ht.values)
  | dyadic op => exact fitting (Fitting.dyadic hl op).last
  | monadic op => exact fitting (.monadic op)
  | indexers nodes => exact fitting (.indexers hl nodes)
  | select field =>
    exact fitting (Fitting.pop.bind fun v hv =>
      (Fitting.lift (Value.field_gives field hv)).bind fun w hw => (Fitting.push job hw).last)
  | identity positive => exact fitting (Fitting.identity positive).last
  | coerce kind node operand baseline => exact fitting (.coerce h₁ kind node operand baseline)
  | shortCircuit right conjunction => exact fitting (.shortCircuit right conjunction)
  | assert =>
    refine fitting (Fitting.popBool.bind fun b _ => ?_)
    split
    · exact .nothing
    · exact .fail _
  | diagonal offset => exact fitting (.onRow fun r hr => hr.diagonal offset)
  | matrix index column => exact fitting (.onRow fun r hr => hr.asMatrix index column)
  | transpose => exact fitting (.onRow fun r hr => hr.transpose)
  | aggregate mode baseline =>
    simp only [Task.exec, wp_bind]
    exact wp_mono (aggregate_fits hm (hdisplay mode baseline rfl))
      (fun _ _ h => ⟨h, List.forall_mem_nil _⟩) fun _ _ h => h

end Exec

/-! A signal brings in nothing. -/

namespace Machine.Fits

theorem undo (h : m.Fits N) (A : Agenda) : (m.undo A).Fits N := by
  induction A generalizing m with
  | nil => exact h
  | cons t A ih =>
    rw [Machine.undo_cons]
    apply ih
    cases t with
    | leave depth => exact h.with_frames (h.locals.truncate depth)
    | endCall => exact ⟨h.stack, h.locals, h.store⟩
    | _ => exact h

theorem caught (h : m.Fits N) (c : LabelledClause) (j : Jump) : (c.caught j m).Fits N :=
  ⟨fun _ hv => h.stack _ (Session.mem_of_mem_shrink hv), h.locals.truncate _, h.store⟩

end Machine.Fits

end Algol68
