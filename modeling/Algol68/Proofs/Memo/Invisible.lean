import Algol68.Proofs.Memo.Alongside
import Algol68.Proofs.Run.Action
import Algol68.Proofs.Stack.Balance

/-! Memoization is invisible. A session whose machine notes how to evaluate nodes again and one
whose machine never knows anything about a node give the same answers to the same actions, as far as
those come to an end. -/

namespace Algol68

variable {job : Job} {units : NodeId → Prop} {g : Guide} {m n : Machine} {s r : Session}
  {unit : NodeId} {e e' : Halt}

/-! What is told of an action. -/

/-- A procedure without the activation that it was elaborated in. -/
def Procedure.detached : Procedure → Procedure
  | .standard p => .standard p
  | .routine text _ => .routine text ⟨0, 0⟩

/-- A value without the activations that its procedures were elaborated in. -/
def Value.detached (v : Value) : Value := v.rename .detached

/-- The unit that an action runs. -/
def Action.target (p : Program) : Action → NodeId
  | .run => p.root
  | .resume unit => unit

/-- How an action ended, and the session after it. -/
abbrev Answer := Outcome × Session

namespace Answer

def detached : Outcome → Outcome
  | .completed v => .completed v.detached
  | o => o

/-- Two actions ended in the same way, with the same value or fault, and left the same but for the
activations that procedures were elaborated in: the same diagnostics, the same text, the same store,
the same locals of the standard environ and the same depths of all stacks. -/
structure Same (x y : Answer) : Prop where
  outcome : detached y.1 = detached x.1
  reported : y.2.reported = x.2.reported
  transput : y.2.machine.transput = x.2.machine.transput
  store : y.2.machine.store.rename .detached = x.2.machine.store.rename .detached
  stack : y.2.machine.stack.map Value.detached = x.2.machine.stack.map Value.detached
  locals : y.2.machine.frames.frames.map (fun f => f.locals.map Value.detached) =
    x.2.machine.frames.frames.map fun f => f.locals.map Value.detached
  calls : y.2.machine.calls = x.2.machine.calls
  summary : y.2.summary = x.2.summary

end Answer

namespace Session

/-- A session whose machine has no room to note anything about a node. -/
def forgetful (job : Job) (source : Option String) (keepsText : Bool) : Session :=
  ⟨job, source, { Machine.new job keepsText with annotations := .new 0 }, []⟩

/-- The answers of a session to actions that come to an end, one after the other. -/
inductive Answers : Session → List Action → List Answer → Prop where
  | nil (s : Session) : Answers s [] []
  | cons {s : Session} {a : Action} {actions : List Action} {answers : List Answer} (steps : Nat)
      (he : (s.act steps a).1.ended) (h : Answers (s.act steps a).2 actions answers) :
      Answers s (a :: actions) (s.act steps a :: answers)

end Session

/-! A machine that knows nothing. -/

theorem Annotations.entry_of_size {a : Annotations} (h : a.size = 0) (k : NodeId) :
    a.entry k = .blank := by
  have : a.entries = #[] := Array.eq_empty_of_size_eq_zero h
  simp [entry, this]

/-- What is known of procedures may be forgotten. -/
theorem Scoped.mono {starts : NodeId → Prop} {K K' : NodeId → FrameHandle → Prop} {A : Agenda}
    (h : Scoped job starts K A m) (hK : ∀ text environ, K text environ → K' text environ) :
    Scoped job starts K' A m := by
  have mono (p : Procedure) (hp : m.Callable job starts K p) : m.Callable job starts K' p :=
    hp.outlast h.nested (Nat.le_refl _) hK (.refl _ _)
  exact ⟨h.consistent, h.nested, h.placed.mono fun _ _ h => h.mono hK, h.values.mono mono,
    fun u hu v hv => (h.work u hu v hv).mono mono⟩

/-! Mirrors at rest. -/

namespace Guide

theorem rename_same : Value.rename same.procedure = id := by
  have : same.procedure = id := by
    funext r
    cases r <;> rfl
  funext v
  rw [this, Value.rename_id]
  rfl

theorem Maps.refl (F : FrameStack) : same.Maps F F := by
  refine ⟨fun i f hf => ⟨f, hf, rfl, rfl, ?_, rfl⟩, fun i j hij _ => hij,
    fun i l h => .single h, ?_, fun s t hst _ => hst, fun s hs => hs, fun h _ hl => hl⟩
  · rw [rename_same, Array.map_id]
  · exact fun j x hx hfree => absurd rfl (hfree j (FrameStack.lt_depth hx))

theorem Mirrors.refl (m : Machine) (a : Annotations) :
    same.Mirrors m { m with annotations := a } := by
  refine ⟨?_, ?_, rfl, rfl, .refl m.frames⟩
  · rw [rename_same, Array.map_id]
  · rw [Store.rename, rename_same, Array.map_id]

theorem Maps.place_zero {F G : FrameStack} (h : g.Maps F G) (hF : 0 < F.depth) : g.place 0 = 0 := by
  by_contra hne
  have hG : 0 < G.depth := Nat.lt_of_le_of_lt (Nat.zero_le _) (h.place_lt hF)
  have free : ∀ i < F.depth, g.place i ≠ 0 := by
    intro i hi hz
    rcases Nat.eq_zero_or_pos i with rfl | hpos
    · exact hne hz
    · have := h.rising 0 i hpos hi
      omega
  exact absurd (h.gap 0 _ (Array.getElem?_eq_getElem hG) free).1 (Nat.lt_irrefl 0)

theorem detached (g : Guide) : Procedure.detached ∘ g.procedure = Procedure.detached := by
  funext r
  cases r <;> rfl

theorem detached_rename (g : Guide) (v : Value) : (v.rename g.procedure).detached = v.detached := by
  rw [Value.detached, Value.rename_rename, g.detached]
  rfl

end Guide

theorem Exec.result_sim (h : g.Mirrors m n) (mode : ModeId) (baseline : Nat) :
    Sim g (result mode baseline) (result mode baseline) m n fun v m' w n' =>
      w = v.rename g.procedure ∧ g.Mirrors m' n' := by
  have counted {v w : Value} {m n : Machine} (hw : w = v.rename g.procedure) (h : g.Mirrors m n) :
      Sim g
        (do
          let size ← depth
          if size ≠ baseline then fail (.stackImbalance baseline size)
          return v)
        (do
          let size ← depth
          if size ≠ baseline then fail (.stackImbalance baseline size)
          return w) m n fun v m' w n' => w = v.rename g.procedure ∧ g.Mirrors m' n' := by
    refine Sim.bind (Q := fun k m' l n' => l = k ∧ m' = m ∧ n' = n) ⟨by simp [h.stack], rfl, rfl⟩ ?_
    rintro k _ _ _ ⟨rfl, rfl, rfl⟩
    refine Sim.ite Iff.rfl (fun _ => ?_) fun _ => Sim.pure ⟨hw, h⟩
    exact (Sim.fail (Q := fun _ _ _ _ => False) h _).bind fun _ _ _ _ h => h.elim
  unfold result
  refine Sim.ite Iff.rfl (fun _ => ?_) fun _ => ?_
  · exact (Sim.pure (Q := fun v m' w n' => w = v.rename g.procedure ∧ g.Mirrors m' n') ⟨rfl, h⟩).bind
      fun _ _ _ _ h => counted h.1 h.2
  · refine (Sim.pop h).bind ?_
    rintro v _ _ _ ⟨S, -, rfl, rfl, rfl⟩
    exact counted rfl (h.with_stack S)

/-! Sessions side by side. -/

/-- The machine in which a run ended, or was left off. -/
def Halt.machine : Halt → Machine
  | .completed m | .escaped _ m | .unfinished _ m => m

theorem Halts.ends {x : Agenda × Machine} (h : Halts job x e) : Ends job x e.machine := by
  cases h with
  | completed h => exact .inl h
  | escaped h => exact .inr ⟨_, h⟩

namespace Session

/-- A session beside one that knows nothing about nodes, both between two actions. -/
structure Parallel (job : Job) (units : NodeId → Prop) (s r : Session) : Prop where
  reached : Reached job units s
  job_eq : r.job = job
  source : r.source = s.source
  reported : r.reported = s.reported
  ready : ∃ L, r.machine.Ready job (job.starts units) L
  unlearnt : r.machine.annotations.size = 0
  mirrors : ∃ g : Guide, g.Mirrors s.machine r.machine

namespace Parallel

theorem stack (h : Parallel job units s r) : r.machine.stack = #[] := by
  obtain ⟨g, hg⟩ := h.mirrors
  simp [hg.stack, h.reached.stack]

theorem lastFault (h : Parallel job units s r) (g : Guide) (sig : Signal) :
    r.lastFault (g.signal sig) = s.lastFault sig := by
  cases sig with
  | fault f => rfl
  | jump j => simp only [Session.lastFault, Guide.signal, h.job_eq, h.reached.job_eq]

end Parallel

/-- What two sessions have to tell of runs that end in the same way. -/
structure Tells (x y : Answer) : Prop where
  outcome : Answer.detached y.1 = Answer.detached x.1
  reported : y.2.reported = x.2.reported
  job_eq : y.2.job = x.2.job
  source : y.2.source = x.2.source
  mirrors : ∃ g : Guide, g.Mirrors x.2.machine y.2.machine

theorem Parallel.abandon_tells (h : Parallel job units s r) (hm : g.Mirrors m n)
    (hd : m.frames.depth = 1) (hd' : n.frames.depth = 1) (f : Fault) :
    Tells (s.abandon m f) (r.abandon n f) := by
  obtain rfl := h.reached.job_eq
  obtain ⟨L, hL⟩ := h.ready
  have whole {F : FrameStack} (hF : F.depth = 1) : F.truncate 1 = F := by
    rw [← hF]
    simp [FrameStack.truncate, FrameStack.depth]
  refine ⟨?_, ?_, h.job_eq, h.source, g, ?_, hm.store, hm.transput, rfl, ?_⟩
  · rw [abandon_eq, abandon_eq, h.job_eq]
  · simp only [abandon, h.source, h.reported]
  · simp [abandon, hm.stack, h.stack, h.reached.stack]
  · simp only [abandon, hL.idle.depth, h.reached.idle.depth, whole hd, whole hd']
    exact hm.frames

/-- Runs that end in the same way are told of in the same way. -/
theorem Parallel.conclude_tells (h : Parallel job units s r) (he : g.Ends e e')
    (hd : e.machine.frames.depth = 1) (hd' : e'.machine.frames.depth = 1) :
    Tells (s.conclude unit e) (r.conclude unit e') := by
  have same : r.job = s.job := h.job_eq.trans h.reached.job_eq.symm
  cases he with
  | @completed m n hm =>
    have keeps (m : Machine) (mode : ModeId) := result_keeps mode 0 m
    have sim := Exec.result_sim hm (s.job.program.tree.mode unit) 0
    simp only [conclude, same, h.stack, h.reached.stack, Array.size_empty]
    unfold Exec.Sim at sim
    split at sim
    · next hx hy =>
      obtain ⟨rfl, hm'⟩ := sim
      simp only [hx, hy]
      refine ⟨?_, h.reported, rfl, h.source, g, hm'⟩
      simp only [Answer.detached, g.detached_rename]
    · next hx hy =>
      obtain ⟨rfl, hm'⟩ := sim
      simp only [hx, hy]
      obtain ⟨S, -, rfl⟩ := Exec.wp_error (keeps m _) hx
      obtain ⟨T, -, rfl⟩ := Exec.wp_error (keeps n _) hy
      rw [h.lastFault]
      exact h.abandon_tells hm' hd hd' _
    · exact sim.elim
  | @escaped sig m n hm =>
    simp only [conclude]
    rw [h.lastFault]
    exact h.abandon_tells hm hd hd' _

/-- An action came to an end just when its run did. -/
theorem runUnit_ended {steps : Nat} (he : (s.runUnit steps unit).1.ended) :
    ∃ e, Halts s.job ([.unit unit], s.machine) e ∧ s.runUnit steps unit = s.conclude unit e := by
  refine ⟨drive s.job steps [.unit unit] s.machine, .of_drive rfl fun A m hd => ?_, rfl⟩
  rw [runUnit, hd] at he
  cases he

theorem exists_runUnit (h : Halts s.job ([.unit unit], s.machine) e) :
    ∃ steps, s.runUnit steps unit = s.conclude unit e ∧ (s.runUnit steps unit).1.ended := by
  obtain ⟨steps, hd⟩ := h.exists_drive
  have eq : s.runUnit steps unit = s.conclude unit e := by rw [runUnit, hd]
  refine ⟨steps, eq, ?_⟩
  have abandoned (m : Machine) (f : Fault) : (s.abandon m f).1.ended := by
    rw [abandon_eq]
    cases s.job.config.mode <;> rfl
  rw [eq]
  cases h with
  | completed =>
    simp only [conclude]
    split
    · rfl
    · exact abandoned _ _
  | escaped => exact abandoned _ _

namespace Tells

variable {x y : Answer}

/-- Between two actions, machines of which one mirrors the other have the same to tell. -/
theorem same (h : Tells x y) (hx : x.2.machine.frames.depth = 1)
    (hy : y.2.machine.frames.depth = 1) : Answer.Same x y := by
  obtain ⟨g, hm⟩ := h.mirrors
  have detached : Value.detached ∘ Value.rename g.procedure = Value.detached :=
    funext g.detached_rename
  refine ⟨h.outcome, h.reported, hm.transput, ?_, ?_, ?_, hm.calls, ?_⟩
  · rw [hm.store]
    simp only [Store.rename, Array.map_map]
    exact congrArg Store.mk (congrArg (Array.map · _) detached)
  · rw [hm.stack, Array.map_map, detached]
  · obtain ⟨f, hf⟩ := Array.size_eq_one_iff.mp hx
    obtain ⟨k, hk⟩ := Array.size_eq_one_iff.mp hy
    obtain ⟨k', hk', -, halike⟩ := hm.frames.frame 0 f (by rw [hf]; rfl)
    rw [hm.frames.place_zero (by omega), hk] at hk'
    obtain rfl : k = k' := by simpa using hk'
    rw [hf, hk]
    simp [halike.locals, detached]
  · have size : y.2.machine.stack.size = x.2.machine.stack.size := by simp [hm.stack]
    unfold Session.summary
    rw [h.job_eq, size, hx, hy, hm.calls]

end Tells

theorem runUnit_unique {k k' : Nat} (h : (s.runUnit k unit).1.ended)
    (h' : (s.runUnit k' unit).1.ended) : s.runUnit k unit = s.runUnit k' unit := by
  obtain ⟨e, he, hk⟩ := runUnit_ended h
  obtain ⟨e', he', hk'⟩ := runUnit_ended h'
  rw [hk, hk', he.unique he']

/-- An action does not change how many nodes there is room for. -/
theorem runUnit_size {steps : Nat} (he : (s.runUnit steps unit).1.ended) :
    (s.runUnit steps unit).2.machine.annotations.size = s.machine.annotations.size := by
  obtain ⟨m, hm, hl⟩ := runUnit_leaves he
  have kept : (s.runUnit steps unit).2.machine.annotations = m.annotations :=
    congrArg Prod.fst hl.learnt
  rw [kept, hm.extends.size]

theorem act_eq (h : s.machine.Clean job) (steps : Nat) (a : Action) :
    s.act steps a = s.runUnit steps (a.target s.job.program) := by
  cases a with
  | run => rfl
  | resume unit => rw [act, resume, atRest_eq h, Action.target]

namespace Parallel

theorem new (source : Option String) (keepsText : Bool) :
    Parallel job units (.new job source keepsText) (.forgetful job source keepsText) := by
  have ready := @Machine.new_ready job (job.starts units) keepsText
  refine ⟨.new source keepsText, rfl, rfl, rfl, ⟨.standard, ?_⟩, rfl, .same, .refl _ _⟩
  refine ⟨ready.idle.of_outline rfl (Nat.le_refl _) (.new 0), ?_, ?_⟩
  · exact ⟨ready.values.stack, ready.values.locals, ready.values.cells⟩
  · exact ⟨ready.fits.seen, ready.fits.held⟩

theorem clean (h : Parallel job units s r) : r.machine.Clean job := by
  obtain ⟨L, hL⟩ := h.ready
  exact hL.idle.clean h.stack

section

variable (hw : job.program.WellScoped (job.starts units))

include hw

theorem alongside (h : Parallel job units s r) (hu : job.starts units unit) :
    ∃ g : Guide, Alongside job units g [.unit unit] s.machine [.unit unit] r.machine := by
  obtain ⟨g, hm⟩ := h.mirrors
  obtain ⟨L, hL⟩ := h.ready
  refine ⟨g, ?_, (hL.recorded hw hu).state.mono fun _ _ _ => trivial, h.unlearnt, hm,
    .of_units g _ _ [.unit unit]⟩
  rcases hu with rfl | hu
  · exact .run h.reached
  · have := Underway.resume h.reached hu
    rwa [atRest_eq h.reached.clean] at this

variable (hj : job.program.JumpsOutward (job.starts units))

include hj

theorem next (h : Parallel job units s r) (hu : job.starts units unit) {steps steps' : Nat}
    (he : (s.runUnit steps unit).1.ended) (he' : (r.runUnit steps' unit).1.ended)
    (ht : Tells (s.runUnit steps unit) (r.runUnit steps' unit)) :
    Parallel job units (s.runUnit steps unit).2 (r.runUnit steps' unit).2 := by
  obtain ⟨L, hL⟩ := h.ready
  obtain ⟨A, m, L', hr, hend⟩ := hL.exists_final hw hj h.job_eq hu he'
  refine ⟨?_, (r.runUnit_job steps' unit).trans h.job_eq, ht.source, ht.reported,
    ⟨L', hL.of_ended hw hj h.job_eq hu he' hr hend⟩, ?_, ht.mirrors⟩
  · rcases hu with rfl | hu
    · have same : s.run steps = s.runUnit steps job.program.root := by
        rw [run, h.reached.job_eq]
      have := Reached.run h.reached steps (by rw [same]; exact he)
      rwa [same] at this
    · have same : s.resume steps unit = s.runUnit steps unit := by
        rw [resume, atRest_eq h.reached.clean]
      have := Reached.resume h.reached steps unit hu (by rw [same]; exact he)
      rwa [same] at this
  · exact (runUnit_size he').trans h.unlearnt

variable (hlimit : job.config.frameLimit = none) (hv : job.LeavesValues units)

include hlimit hv

/-- An action that comes to an end comes to the same end in the other session. -/
theorem runUnit (h : Parallel job units s r) (hu : job.starts units unit) {steps : Nat}
    (he : (s.runUnit steps unit).1.ended) : ∃ steps', (r.runUnit steps' unit).1.ended ∧
      Answer.Same (s.runUnit steps unit) (r.runUnit steps' unit) ∧
      Parallel job units (s.runUnit steps unit).2 (r.runUnit steps' unit).2 := by
  obtain ⟨g, halong⟩ := h.alongside hw hu
  obtain ⟨L, hL⟩ := h.ready
  obtain ⟨e, hhalts, hs⟩ := runUnit_ended he
  rw [h.reached.job_eq] at hhalts
  obtain ⟨g', e', hhalts', hends⟩ := halong.halts hw hj hlimit hv hhalts
  obtain ⟨steps', hr, he'⟩ := exists_runUnit (s := r) (h.job_eq ▸ hhalts')
  have tells : Tells (s.conclude unit e) (r.conclude unit e') := h.conclude_tells hends
    (h.reached.idle.of_ends hhalts.ends).depth (hL.idle.of_ends hhalts'.ends).depth
  rw [← hs, ← hr] at tells
  have next := h.next hw hj hu he he' tells
  obtain ⟨L', hL'⟩ := next.ready
  exact ⟨steps', he', tells.same next.reached.idle.depth hL'.idle.depth, next⟩

/-- An action that comes to an end in the other session comes to an end. -/
theorem runUnit_of (h : Parallel job units s r) (hu : job.starts units unit) {steps : Nat}
    (he : (r.runUnit steps unit).1.ended) : ∃ steps', (s.runUnit steps' unit).1.ended := by
  obtain ⟨g, halong⟩ := h.alongside hw hu
  obtain ⟨e, hhalts, hr⟩ := runUnit_ended he
  rw [h.job_eq] at hhalts
  obtain ⟨e', hhalts'⟩ := halong.halts_of hw hj hlimit hv hhalts
  obtain ⟨steps', -, he'⟩ := exists_runUnit (s := s) (h.reached.job_eq ▸ hhalts')
  exact ⟨steps', he'⟩

theorem answers (h : Parallel job units s r) {actions : List Action} {answers : List Answer}
    (ha : ∀ a ∈ actions, job.starts units (a.target job.program)) (hs : s.Answers actions answers) :
    ∃ answers', r.Answers actions answers' ∧ List.Forall₂ Answer.Same answers answers' := by
  induction hs generalizing r with
  | nil => exact ⟨[], .nil r, .nil⟩
  | @cons s a actions answers steps he _ ih =>
    rw [act_eq h.reached.clean, h.reached.job_eq] at he ih ⊢
    obtain ⟨steps', he', same, next⟩ :=
      h.runUnit hw hj hlimit hv (ha a (List.mem_cons_self ..)) he
    obtain ⟨answers', hr, hsame⟩ := ih next fun b hb => ha b (List.mem_cons_of_mem _ hb)
    have act : r.act steps' a = r.runUnit steps' (a.target job.program) := by
      rw [act_eq h.clean, h.job_eq]
    rw [← act] at he' same hr
    exact ⟨_, .cons steps' he' hr, .cons same hsame⟩

theorem answers_of (h : Parallel job units s r) {actions : List Action} {answers' : List Answer}
    (ha : ∀ a ∈ actions, job.starts units (a.target job.program))
    (hr : r.Answers actions answers') :
    ∃ answers, s.Answers actions answers ∧ List.Forall₂ Answer.Same answers answers' := by
  induction hr generalizing s with
  | nil => exact ⟨[], .nil s, .nil⟩
  | @cons r a actions answers' steps he _ ih =>
    rw [act_eq h.clean, h.job_eq] at he ih ⊢
    have hu := ha a (List.mem_cons_self ..)
    obtain ⟨steps₁, he₁⟩ := h.runUnit_of hw hj hlimit hv hu he
    obtain ⟨steps₂, he₂, same, next⟩ := h.runUnit hw hj hlimit hv hu he₁
    rw [runUnit_unique he₂ he] at same next
    obtain ⟨answers, hs, hsame⟩ := ih next fun b hb => ha b (List.mem_cons_of_mem _ hb)
    have act : s.act steps₁ a = s.runUnit steps₁ (a.target job.program) := by
      rw [act_eq h.reached.clean, h.reached.job_eq]
    rw [← act] at he₁ same hs
    exact ⟨_, .cons steps₁ he₁ hs, .cons same hsame⟩

end

end Parallel

/-- A session that can note nothing never does. -/
theorem Answers.unlearnt {actions : List Action} {answers : List Answer}
    (h : r.Answers actions answers) (hr : r.machine.annotations.size = 0) :
    ∀ s ∈ r :: answers.map Prod.snd, s.machine.annotations.size = 0 := by
  induction h with
  | nil => simpa using hr
  | @cons s a actions answers steps he _ ih =>
    have next : (s.act steps a).2.machine.annotations.size = 0 := by
      cases a with
      | run => exact (runUnit_size he).trans hr
      | resume unit => exact (runUnit_size (s := s.atRest) he).trans hr
    exact List.forall_mem_cons.mpr ⟨hr, ih next⟩

theorem Answers.unique {actions : List Action} {answers answers' : List Answer}
    (h : s.Answers actions answers) (h' : s.Answers actions answers') : answers = answers' := by
  induction h generalizing answers' with
  | nil =>
    cases h'
    rfl
  | @cons s a actions answers steps he _ ih =>
    cases h' with
    | cons steps' he' h' =>
      have same : s.act steps a = s.act steps' a := by
        cases a with
        | run => exact runUnit_unique he he'
        | resume unit => exact runUnit_unique (s := s.atRest) he he'
      rw [← same] at h' ⊢
      rw [ih h']

end Session

section

open Session

/-- A session that notes how to evaluate nodes again and one that knows nothing about any node give
the same answers, if the program is well-scoped, its jumps lead outward, each unit leaves the values
that its mode tells of, and there is no limit on frames. -/
theorem memoization_invisible (hw : job.program.WellScoped (job.starts units))
    (hj : job.program.JumpsOutward (job.starts units)) (hlimit : job.config.frameLimit = none)
    (hv : job.LeavesValues units) (source : Option String) (keepsText : Bool)
    (actions : List Action) (ha : ∀ unit, .resume unit ∈ actions → units unit) :
    (∀ answers, (Session.new job source keepsText).Answers actions answers →
      ∃ answers', (forgetful job source keepsText).Answers actions answers' ∧
        List.Forall₂ Answer.Same answers answers') ∧
    (∀ answers', (forgetful job source keepsText).Answers actions answers' →
      (∃ answers, (Session.new job source keepsText).Answers actions answers ∧
        List.Forall₂ Answer.Same answers answers') ∧
      ∀ r ∈ forgetful job source keepsText :: answers'.map Prod.snd, ∀ unit A m,
        Runs r.job ([.unit unit], r.machine) (A, m) → ∀ k, m.annotations.entry k = .blank) := by
  have parallel : Parallel job units _ _ := .new source keepsText
  have starts : ∀ a ∈ actions, job.starts units (a.target job.program) := by
    intro a h
    cases a with
    | run => exact .inl rfl
    | resume unit => exact .inr (ha unit h)
  refine ⟨fun answers h => parallel.answers hw hj hlimit hv starts h, fun answers' h => ⟨?_, ?_⟩⟩
  · exact parallel.answers_of hw hj hlimit hv starts h
  · intro r hr unit A m hrun
    refine Annotations.entry_of_size ?_
    rw [(Runs.extends hrun).size]
    exact h.unlearnt rfl r hr

end

theorem Job.VoidConsistent.leavesValues (hv : job.VoidConsistent units) :
    job.LeavesValues units := by
  intro n rest m m' h hr
  have start : Upon job.program.tree m.stack.toList
      (m.stack.size + (job.program.tree.mode n).worth) [.unit n] m :=
    ⟨List.prefix_refl _, .unit (Nat.le_of_eq (by simp)) .refl, by simp⟩
  exact Agenda.Balanced.nil_iff.mp (start.runs hv h hr).balanced

/-- The program `(5)`. -/
def bracketed : Job where
  program := {
    tree := {
      nodes := #[⟨.literal (.int 5), .int, .dummy⟩, ⟨.serialClause ⟨1⟩ ⟨0, 1⟩, .int, .dummy⟩,
        ⟨.closed ⟨1⟩ ⟨1⟩, .int, .dummy⟩]
      lists := #[⟨0⟩]
      modeLists := #[]
      loops := #[]
      alternatives := #[] }
    modes := .new
    scopes := ⟨#[.standard, ⟨some .standard, 1, #[], false⟩]⟩
    labels := .new
    interner := .new
    root := ⟨2⟩
    environs := #[] }
  oracle := ModeTable.oracle .new
  config := { Config.default with frameLimit := none }

theorem bracketed_voidConsistent : bracketed.VoidConsistent fun _ => False :=
  Program.CallFree.voidConsistent (.of_size (by decide)) (.of_agrees (by decide))

theorem bracketed_wellScoped : bracketed.program.WellScoped (bracketed.starts fun _ => False) := by
  refine .of_places [(⟨0⟩, ⟨2⟩), (⟨1⟩, ⟨1⟩), (⟨1⟩, ⟨0⟩)] rfl (by decide) (by decide) (fun n hn => ?_)
    (by decide) ?_
  · rcases hn with rfl | hn
    · decide
    · exact hn.elim
  · simp only [List.forall_mem_cons, List.not_mem_nil, false_imp_iff, implies_true, and_true]
    refine ⟨⟨⟨rfl, rfl⟩, fun range items h => ?_⟩, trivial, trivial⟩
    cases h
    rfl

theorem bracketed_jumpsOutward :
    bracketed.program.JumpsOutward (bracketed.starts fun _ => False) := by
  rintro s ⟨_ | _ | _ | k⟩ l h hk <;> cases hk

/-- The second run of the program takes the closed clause for its unit, and a session that knows
nothing gives the same answers. -/
theorem bracketed_answers : ∃ answers answers',
    (Session.new bracketed none false).Answers [.run, .run] answers ∧
    (Session.forgetful bracketed none false).Answers [.run, .run] answers' ∧
    answers.map (fun x => x.2.machine.annotations.strategy ⟨2⟩) =
      [some ⟨.unit, ⟨0⟩⟩, some ⟨.unit, ⟨0⟩⟩] ∧
    List.Forall₂ Answer.Same answers answers' := by
  have h : (Session.new bracketed none false).Answers [.run, .run] _ :=
    .cons 12 rfl (.cons 12 rfl (.nil _))
  obtain ⟨there, -⟩ := memoization_invisible bracketed_wellScoped bracketed_jumpsOutward rfl
    bracketed_voidConsistent.leavesValues none false [.run, .run] (by simp)
  obtain ⟨answers', h', same⟩ := there _ h
  exact ⟨_, answers', h, h', rfl, same⟩

/-- The program `((PROC VOID: GOTO l))`, where `l` is a label of a range that is not around the
jump. In the second run the closed clause is reduced to the routine text, whose environ is sought at
the level of the label. -/
def astray : Job where
  program := {
    tree := {
      nodes := #[⟨.jump ⟨0⟩, .void, .dummy⟩, ⟨.routineText ⟨3⟩ 0 ⟨0⟩, ⟨7⟩, .dummy⟩,
        ⟨.serialClause ⟨2⟩ ⟨0, 1⟩, ⟨7⟩, .dummy⟩, ⟨.closed ⟨2⟩ ⟨2⟩, ⟨7⟩, .dummy⟩,
        ⟨.serialClause ⟨1⟩ ⟨1, 1⟩, .void, .dummy⟩, ⟨.closed ⟨1⟩ ⟨4⟩, .void, .dummy⟩]
      lists := #[⟨1⟩, ⟨3⟩]
      modeLists := #[]
      loops := #[]
      alternatives := #[] }
    modes := ⟨Mode.primitives.push (.proc [] .void)⟩
    scopes := ⟨#[.standard, ⟨some ⟨0⟩, 1, #[], false⟩, ⟨some ⟨1⟩, 2, #[], false⟩,
      ⟨some ⟨2⟩, 3, #[], false⟩, ⟨some ⟨1⟩, 2, #[], true⟩]⟩
    labels := ⟨#[⟨⟨0⟩, ⟨4⟩, none, none⟩]⟩
    interner := .new
    root := ⟨5⟩
    environs := #[0, 2] }
  oracle := ModeTable.oracle ⟨Mode.primitives.push (.proc [] .void)⟩
  config := { Config.default with frameLimit := none }

theorem astray_wellScoped : astray.program.WellScoped (astray.starts fun _ => False) := by
  refine .of_places [(⟨0⟩, ⟨5⟩), (⟨1⟩, ⟨4⟩), (⟨1⟩, ⟨3⟩), (⟨2⟩, ⟨2⟩), (⟨2⟩, ⟨1⟩), (⟨3⟩, ⟨0⟩)] rfl
    (by decide) (by decide) (fun n hn => ?_) (by decide) ?_
  · rcases hn with rfl | hn
    · decide
    · exact hn.elim
  · simp only [List.forall_mem_cons, List.not_mem_nil, false_imp_iff, implies_true, and_true]
    refine ⟨⟨⟨rfl, rfl⟩, fun range items h => ?_⟩, trivial, ⟨⟨rfl, rfl⟩, fun range items h => ?_⟩,
      trivial, ⟨rfl, rfl⟩, trivial⟩
    all_goals
      cases h
      rfl

theorem astray_voidConsistent : astray.VoidConsistent fun _ => False :=
  Program.CallFree.voidConsistent (.of_size (by decide)) (.of_agrees (by decide))

/-- Without the condition on jumps, what a session knows may show. -/
theorem astray_visible : astray.program.WellScoped (astray.starts fun _ => False) ∧
    astray.config.frameLimit = none ∧ astray.LeavesValues (fun _ => False) ∧
    ∃ answers, (Session.new astray none false).Answers [.run, .run] answers ∧
      ∀ answers', (Session.forgetful astray none false).Answers [.run, .run] answers' →
        ¬ List.Forall₂ Answer.Same answers answers' := by
  have h : (Session.new astray none false).Answers [.run, .run] _ :=
    .cons 20 rfl (.cons 20 rfl (.nil _))
  have h' : (Session.forgetful astray none false).Answers [.run, .run] _ :=
    .cons 20 rfl (.cons 20 rfl (.nil _))
  refine ⟨astray_wellScoped, rfl, astray_voidConsistent.leavesValues, _, h, fun answers' hf same => ?_⟩
  cases hf.unique h'
  -- the second run of the one session fails, that of the other one is completed
  obtain ⟨-, second⟩ := List.forall₂_cons.mp same
  have outcome := (List.forall₂_cons.mp second).1.outcome
  cases outcome

end Algol68
