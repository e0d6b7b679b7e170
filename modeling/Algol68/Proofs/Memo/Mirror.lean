import Algol68.Proofs.Memo.Frames
import Algol68.Proofs.Machine.Rote

/-! Operations side by side. Two machines of which one mirrors the other do the same operation with
the same result, but for the activations in it, or end it in the same signal; afterwards one still
mirrors the other. -/

namespace Algol68

open Value (Within)
open Outline (Along Admits)

namespace Guide

def iteration (g : Guide) (i : Iteration) : Iteration := { i with body := g.place i.body }

/-- A task with the frames it speaks of found. The end of a repeated evaluation becomes that of a
first one. -/
def task (g : Guide) : Task → Task
  | .within n => .settle n
  | .leave depth => .leave (g.place depth)
  | .labelled c =>
    .labelled { c with frame := g.place c.frame, activation := g.serial c.activation }
  | .iterate i => .iterate (g.iteration i)
  | .afterWhile i => .afterWhile (g.iteration i)
  | .afterUntil i => .afterUntil (g.iteration i)
  | .advance i => .advance (g.iteration i)
  | .enterRoutine scope environ args body =>
    .enterRoutine scope (g.place environ) (args.map (Value.rename g.procedure)) body
  | t => t.rename g.procedure

/-- A signal with the activation it leads to found. -/
def signal (g : Guide) : Signal → Signal
  | .jump j => .jump { j with frame := g.serial j.frame }
  | .fault f => .fault f

/-- The second machine is the first one but for further frames, and what it knows about nodes. -/
structure Mirrors (g : Guide) (m n : Machine) : Prop where
  stack : n.stack = m.stack.map (Value.rename g.procedure)
  store : n.store = m.store.rename g.procedure
  transput : n.transput = m.transput
  calls : n.calls = m.calls
  frames : g.Maps m.frames n.frames

end Guide

/-- The places and activations a task speaks of are below `depth` and were opened before `next`. -/
def Task.Refers (depth next : Nat) : Task → Prop
  | .leave d => d < depth
  | .labelled c => c.frame < depth ∧ c.activation < next
  | .iterate i | .afterWhile i | .afterUntil i | .advance i => i.body < depth
  | .enterRoutine _ environ _ _ => environ < depth
  | _ => True

theorem Task.Refers.mono {depth depth' next : Nat} {t : Task} (h : t.Refers depth next)
    (hd : depth ≤ depth') : t.Refers depth' next := by
  cases t with
  | labelled c => exact ⟨Nat.lt_of_lt_of_le h.1 hd, h.2⟩
  | leave | iterate | afterWhile | afterUntil | advance | enterRoutine =>
    exact Nat.lt_of_lt_of_le h hd
  | _ => trivial

namespace Outline

variable {job : Job} {next : Nat} {o : Outline} {t : Task} {A : Agenda}

theorem Admits.refers (ha : o.Admits t) (hs : o.Sound job next) :
    t.Refers o.frames.length next := by
  cases t with
  | leave depth => exact Nat.lt_of_lt_of_eq (Nat.lt_succ_self depth) ha.1.symm
  | labelled c =>
    obtain ⟨-, hlen, f, hf, hserial, -⟩ := ha
    refine ⟨Nat.lt_of_lt_of_eq (Nat.lt_succ_self c.frame) hlen.symm, ?_⟩
    rw [← hserial]
    exact hs.given _ f hf
  | iterate i | afterWhile i | afterUntil i | advance i =>
    exact Nat.lt_of_lt_of_eq (Nat.lt_succ_self i.body) ha.1.symm
  | enterRoutine => exact ha
  | _ => trivial

theorem Along.refers (ha : Along Admits o A) (hs : o.Sound job next) :
    ∀ t ∈ A, t.Refers o.frames.length next := by
  induction A generalizing o with
  | nil => simp
  | cons t A ih =>
    intro u hu
    rcases List.mem_cons.mp hu with rfl | hu
    · exact ha.1.refers hs
    · exact (ih ha.2 (hs.pass ha.1) u hu).mono (o.length_pass_le t)

end Outline

namespace Guide

variable {g g' : Guide} {depth next : Nat} {t : Task} {A : Agenda} {m n : Machine}

theorem Agrees.task (h : g.Agrees depth next g') (ht : t.Refers depth next)
    (hv : t.Holds (Procedure.Issued next)) : g'.task t = g.task t := by
  have iteration (i : Iteration) (hi : i.body < depth) : g'.iteration i = g.iteration i := by
    rw [Guide.iteration, Guide.iteration, h.place _ hi]
  have values (vs : List Value) (hv : ∀ v ∈ vs, v.Within (Procedure.Issued next)) :
      vs.map (Value.rename g'.procedure) = vs.map (Value.rename g.procedure) :=
    List.map_congr_left fun v hm => h.value (hv v hm)
  cases t with
  | leave d => exact congrArg Task.leave (h.place d ht)
  | labelled c => simp only [Guide.task, h.place _ ht.1, h.serial _ ht.2]
  | iterate i => exact congrArg Task.iterate (iteration i ht)
  | afterWhile i => exact congrArg Task.afterWhile (iteration i ht)
  | afterUntil i => exact congrArg Task.afterUntil (iteration i ht)
  | advance i => exact congrArg Task.advance (iteration i ht)
  | enterRoutine scope environ args body =>
    simp only [Guide.task, h.place _ ht, values args hv]
  | store slot v => exact congrArg (Task.store slot) (h.value (hv v (List.mem_singleton_self v)))
  | take gathering =>
    obtain ⟨p, found, wanted⟩ := gathering
    cases p with
    | slice base trimmers =>
      have := h.value (hv base (List.mem_singleton_self base))
      simp only [Guide.task, Task.rename, Gathering.rename, Purpose.rename, this]
    | _ => rfl
  | call callee count site =>
    exact congrArg (Task.call · count site) (h.value (hv callee (List.mem_singleton_self callee)))
  | print vs => exact congrArg Task.print (values vs hv)
  | _ => rfl

theorem tasks_eq_rename (hp : ∀ t ∈ A, t.plain) (ha : A.active = []) :
    A.map g.task = Agenda.rename g.procedure A := by
  refine List.map_congr_left fun t hm => ?_
  have plain := hp t hm
  have ends := Agenda.active_eq_nil_iff.mp ha t hm
  cases t with
  | within => cases ends
  | leave | endCall | labelled | iterate | afterWhile | afterUntil | advance | enterRoutine =>
    cases plain
  | _ => rfl

theorem Mirrors.onto (h : g.Mirrors m n) : m.onto g.procedure n = n := by
  rw [Machine.onto, ← h.stack, ← h.store, ← h.transput]

theorem Mirrors.of_onto {m' : Machine} (h : g.Mirrors m n) (hf : m'.frames = m.frames)
    (hc : m'.calls = m.calls) : g.Mirrors m' (m'.onto g.procedure n) :=
  ⟨rfl, rfl, rfl, h.calls.trans hc.symm, hf ▸ h.frames⟩

theorem Mirrors.with_stack (h : g.Mirrors m n) (S : Array Value) :
    g.Mirrors { m with stack := S } { n with stack := S.map (Value.rename g.procedure) } :=
  ⟨rfl, h.store, h.transput, h.calls, h.frames⟩

theorem Mirrors.with_frames (h : g.Mirrors m n) {F G : FrameStack} (hm : g.Maps F G) :
    g.Mirrors { m with frames := F } { n with frames := G } :=
  ⟨h.stack, h.store, h.transput, h.calls, hm⟩

/-- What the machines know about nodes, and what was counted, plays no part. -/
theorem Mirrors.of_learnt (h : g.Mirrors m n) (a b : Annotations) (k l : Option Counters) :
    g.Mirrors { m with annotations := a, counters := k }
      { n with annotations := b, counters := l } :=
  ⟨h.stack, h.store, h.transput, h.calls, h.frames⟩

/-- Two machines side by side whose frames are nested and whose routine values speak of activations
that there were. -/
structure Abreast (job : Job) (g : Guide) (m n : Machine) : Prop where
  mirrors : g.Mirrors m n
  values : m.Holds (Procedure.Issued m.frames.nextSerial)
  nested : Nested job.program m.frames.hollow
  sound : m.outline.Sound job m.frames.nextSerial
  nested' : Nested job.program n.frames.hollow
  sound' : n.outline.Sound job n.frames.nextSerial

end Guide

theorem Outline.Sound.frames_given {job : Job} {m : Machine}
    (h : m.outline.Sound job m.frames.nextSerial) : m.frames.Given := by
  intro i f hf
  exact h.given i f.hollow (by simp [Machine.outline, FrameStack.hollow_getElem?, hf])

theorem Outline.Sound.depth_pos {job : Job} {m : Machine}
    (h : m.outline.Sound job m.frames.nextSerial) : 0 < m.frames.depth := by
  simpa [Machine.outline] using h.length_pos

/-- A frame that is opened in both machines mirrors the other one, and the guide leads from the one
to the other. -/
theorem Guide.Abreast.entered {job : Job} {g : Guide} {m n : Machine} (h : g.Abreast job m n)
    (scope : ScopeId) {link link' level level' : Nat} (hlt : link < m.frames.depth)
    (hl : Leads n.frames.hollow link' (g.place link)) :
    (g.opened m.frames n.frames).Mirrors
      { m with frames := m.frames.push scope level (some link) (job.program.freshLocals scope) }
      { n with
        frames := n.frames.push scope level' (some link') (job.program.freshLocals scope) } := by
  have agrees := Agrees.opened g m.frames n.frames
  have fresh : job.program.freshLocals scope = (job.program.freshLocals scope).map
      (Value.rename (g.opened m.frames n.frames).procedure) := by
    simp [Program.freshLocals, Function.comp_def]
  refine ⟨?_, ?_, h.mirrors.transput, h.mirrors.calls, ?_⟩
  · exact h.mirrors.stack.trans (agrees.values h.values.stack).symm
  · refine h.mirrors.store.trans (congrArg Store.mk ?_)
    exact (agrees.values h.values.cells).symm
  · exact h.mirrors.frames.enter h.nested h.sound.frames_given h.sound'.frames_given h.values.locals
      hlt hl fresh

namespace Exec

variable {α β γ δ : Type} {g : Guide} {m n : Machine} {Q : α → Machine → β → Machine → Prop}

/-- Started in `m` and `n`, both operations end well with `Q`, or in the same signal. -/
def Sim (g : Guide) (x : Exec α) (y : Exec β) (m n : Machine)
    (Q : α → Machine → β → Machine → Prop) : Prop :=
  match x m, y n with
  | .ok a m', .ok b n' => Q a m' b n'
  | .error s m', .error s' n' => s' = g.signal s ∧ g.Mirrors m' n'
  | _, _ => False

namespace Sim

theorem pure {a : α} {b : β} (h : Q a m b n) : Sim g (Pure.pure a) (Pure.pure b) m n Q := h

theorem bind {x : Exec α} {y : Exec β} {k : α → Exec γ} {l : β → Exec δ}
    {R : γ → Machine → δ → Machine → Prop} (h : Sim g x y m n Q)
    (hk : ∀ a m' b n', Q a m' b n' → Sim g (k a) (l b) m' n' R) :
    Sim g (x >>= k) (y >>= l) m n R := by
  simp only [Sim, Bind.bind, EStateM.bind] at h ⊢
  cases hx : x m with
  | ok a m' =>
    cases hy : y n with
    | ok b n' =>
      simp only [hx, hy] at h
      exact hk a m' b n' h
    | error s' n' => simp [hx, hy] at h
  | error s m' =>
    cases hy : y n with
    | ok b n' => simp [hx, hy] at h
    | error s' n' =>
      simp only [hx, hy] at h
      exact h

theorem mono {x : Exec α} {y : Exec β} {R : α → Machine → β → Machine → Prop} (h : Sim g x y m n Q)
    (hq : ∀ a m' b n', Q a m' b n' → R a m' b n') : Sim g x y m n R := by
  unfold Sim at *
  split at h
  · exact hq _ _ _ _ h
  · exact h
  · exact h

theorem fail (h : g.Mirrors m n) (c : Cause) :
    Sim g (Exec.fail c : Exec α) (Exec.fail c : Exec β) m n Q := ⟨rfl, h⟩

theorem lift {c : Checked α} {d : Checked β} {f : α → β} (h : g.Mirrors m n) (hd : d = f <$> c)
    (hq : ∀ a, c = .ok a → Q a m (f a) n) : Sim g (Exec.lift c) (Exec.lift d) m n Q := by
  subst hd
  cases c with
  | ok a => exact hq a rfl
  | error e => exact ⟨rfl, h⟩

theorem get {k : Machine → Exec α} {l : Machine → Exec β} (h : Sim g (k m) (l n) m n Q) :
    Sim g (do k (← MonadState.get)) (do l (← MonadState.get)) m n Q := h

theorem ite {p q : Prop} [Decidable p] [Decidable q] {x x' : Exec α} {y y' : Exec β} (hpq : p ↔ q)
    (h : p → Sim g x y m n Q) (h' : ¬ p → Sim g x' y' m n Q) :
    Sim g (if p then x else x') (if q then y else y') m n Q := by
  by_cases hp : p
  · rw [if_pos hp, if_pos (hpq.mp hp)]
    exact h hp
  · rw [if_neg hp, if_neg fun hq => hp (hpq.mpr hq)]
    exact h' hp

end Sim

/-- An operation that commutes with renaming touches neither frames nor calls. -/
theorem Natural.keeps {f : α → α} {x : Exec α} (h : Natural (Value.restrict fun _ => True) f x x)
    (m : Machine) : wp x (fun _ m' => m'.frames = m.frames ∧ m'.calls = m.calls)
      (fun _ m' => m'.frames = m.frames ∧ m'.calls = m.calls) m := by
  have holds : m.Holds fun _ => True :=
    ⟨fun _ _ _ _ => trivial, fun _ _ _ _ _ _ => trivial, fun _ _ _ _ => trivial⟩
  have hx := h m m
  rw [holds.onto trivial] at hx
  unfold wp
  cases hm : x m with
  | ok a m' =>
    rw [hm] at hx
    injection hx with _ hx
    rw [hx]
    exact ⟨rfl, rfl⟩
  | error s m' =>
    rw [hm] at hx
    injection hx with _ hx
    rw [hx]
    exact ⟨rfl, rfl⟩

namespace Sim

/-- Operations on values do the same. -/
theorem natural {f : α → β} {x : Exec α} {y : Exec β} (hN : Natural g.procedure f x y)
    (hk : wp x (fun _ m' => m'.frames = m.frames ∧ m'.calls = m.calls)
      (fun s m' => (m'.frames = m.frames ∧ m'.calls = m.calls) ∧ ∃ e, s = .fault e) m)
    (h : g.Mirrors m n) :
    Sim g x y m n fun a m' b n' => b = f a ∧ g.Mirrors m' n' := by
  have hy := hN m n
  rw [h.onto] at hy
  unfold Sim
  rw [hy]
  cases hx : x m with
  | ok a m' =>
    obtain ⟨hf, hc⟩ := wp_ok hk hx
    exact ⟨rfl, h.of_onto hf hc⟩
  | error s m' =>
    obtain ⟨⟨hf, hc⟩, e, rfl⟩ := wp_error hk hx
    exact ⟨rfl, h.of_onto hf hc⟩

theorem pop (h : g.Mirrors m n) : Sim g Exec.pop Exec.pop m n fun v m' w n' => ∃ S : Array Value,
    m.stack = S.push v ∧ m' = { m with stack := S } ∧ w = v.rename g.procedure ∧
      n' = { n with stack := S.map (Value.rename g.procedure) } := by
  have hn := h.stack
  by_cases he : m.stack = #[]
  · have hn : n.stack = #[] := by simp [hn, he]
    have left : Exec.pop m = .error (.fault (.of .stackUnderflow)) m :=
      eq_error_of_wp (by simp [he])
    have right : Exec.pop n = .error (.fault (.of .stackUnderflow)) n :=
      eq_error_of_wp (by simp [hn])
    rw [Sim, left, right]
    exact ⟨rfl, h⟩
  · obtain ⟨S, v, hS⟩ := Array.exists_push_of_ne_empty he
    rw [hS, Array.map_push] at hn
    rw [Sim, pop_eq hS, pop_eq hn]
    exact ⟨S, hS, rfl, rfl, rfl⟩

theorem popMany (h : g.Mirrors m n) (k : Nat) :
    Sim g (Exec.popMany k) (Exec.popMany k) m n fun vs m' ws n' =>
      (∀ v ∈ vs, v ∈ m.stack) ∧ m' = { m with stack := m.stack.shrink (m.stack.size - k) } ∧
      ws = vs.map (Value.rename g.procedure) ∧
      n' = { n with
        stack := (m.stack.shrink (m.stack.size - k)).map (Value.rename g.procedure) } := by
  have size : n.stack.size = m.stack.size := by simp [h.stack]
  by_cases hk : m.stack.size < k
  · have left : Exec.popMany k m = .error (.fault (.of .stackUnderflow)) m :=
      eq_error_of_wp (by rw [wp_popMany]; exact ⟨fun _ => ⟨rfl, rfl⟩, fun h => by omega⟩)
    have right : Exec.popMany k n = .error (.fault (.of .stackUnderflow)) n :=
      eq_error_of_wp (by rw [wp_popMany]; exact ⟨fun _ => ⟨rfl, rfl⟩, fun h => by omega⟩)
    rw [Sim, left, right]
    exact ⟨rfl, h⟩
  · have left : Exec.popMany k m = .ok (m.stack.toList.drop (m.stack.size - k))
        { m with stack := m.stack.shrink (m.stack.size - k) } :=
      eq_ok_of_wp (by rw [wp_popMany]; exact ⟨fun h => absurd h hk, fun _ => ⟨rfl, rfl⟩⟩)
    have right : Exec.popMany k n = .ok (n.stack.toList.drop (n.stack.size - k))
        { n with stack := n.stack.shrink (n.stack.size - k) } :=
      eq_ok_of_wp (by rw [wp_popMany]; exact ⟨fun h => by omega, fun _ => ⟨rfl, rfl⟩⟩)
    rw [Sim, left, right]
    refine ⟨fun v hv => Array.mem_def.mpr (List.mem_of_mem_drop hv), rfl, ?_, ?_⟩
    · rw [size, h.stack, Array.toList_map, List.map_drop]
    · rw [size, h.stack]
      simp

/-! Locals. -/

section

variable {job : Job} {s : ScopeId} {slot : Slot}

/-- A local is found where the one of the first machine is found. -/
theorem found (h : g.Abreast job m n) (hs : m.outline.Sees job.program s slot) (v w : Value) :
    ∃ k f x, m.frames.holder slot v = .ok k ∧ n.frames.holder slot w = .ok (g.place k) ∧
      m.frames.frames[k]? = some f ∧ n.frames.frames[g.place k]? = some x ∧ g.Alike f x := by
  obtain ⟨d, k, f, -, hds, hl, hf, rfl, hr⟩ := hs.resolve h.nested
  have size := h.sound.sized k f hf
  rw [FrameStack.hollow_getElem?] at hf
  obtain ⟨f, hf', rfl⟩ := Option.map_eq_some_iff.mp hf
  obtain ⟨x, hx, -, ha⟩ := h.mirrors.frames.frame k f hf'
  have hr' := h.mirrors.frames.resolve h.nested' h.sound.depth_pos hl hf'
  have hlevel : job.program.level f.scope = slot.level := hds.level
  have hlt : slot.offset < f.locals.size := by
    have := hds.offset
    simp only [Frame.hollow, Array.size_replicate] at size
    rw [size]
    exact this
  rw [hlevel] at hr'
  refine ⟨k, f, x, ?_, ?_, hf', hx, ha⟩
  · simp only [FrameStack.holder, hr, Bind.bind, Except.bind, hf', Option.bind_some,
      Array.getElem?_eq_getElem hlt]
    rfl
  · have hlt' : slot.offset < x.locals.size := by simpa [ha.locals] using hlt
    simp only [FrameStack.holder, hr', Bind.bind, Except.bind, hx, Option.bind_some,
      Array.getElem?_eq_getElem hlt']
    rfl

theorem load (h : g.Abreast job m n) (hs : m.outline.Sees job.program s slot) :
    Sim g (Exec.load slot) (Exec.load slot) m n fun v m' w n' =>
      m.frames.load slot = .ok v ∧ m' = m ∧ w = v.rename g.procedure ∧ n' = n := by
  obtain ⟨k, f, x, hm, hn, hf, hx, ha⟩ := found h hs .void .void
  have left : m.frames.load slot = .ok (m.frames.localAt k slot.offset) := by
    simp only [FrameStack.load, hm]
    rfl
  have right : n.frames.load slot = .ok ((m.frames.localAt k slot.offset).rename g.procedure) := by
    simp only [FrameStack.load, hn, Bind.bind, Except.bind, Pure.pure, Except.pure]
    congr 1
    simp only [FrameStack.localAt, hf, hx, Option.bind_some, ha.locals, Array.getElem?_map]
    cases f.locals[slot.offset]? <;> rfl
  have left' : Exec.load slot m = .ok (m.frames.localAt k slot.offset) m :=
    eq_ok_of_wp (by rw [wp_load, left]; simp)
  have right' : Exec.load slot n = .ok ((m.frames.localAt k slot.offset).rename g.procedure) n :=
    eq_ok_of_wp (by rw [wp_load, right]; simp)
  rw [Sim, left', right']
  exact ⟨left, rfl, rfl, rfl⟩

theorem store (h : g.Abreast job m n) (hs : m.outline.Sees job.program s slot) (v : Value) :
    Sim g (Exec.store slot v) (Exec.store slot (v.rename g.procedure)) m n fun _ m' _ n' =>
      g.Mirrors m' n' ∧ m'.frames.depth = m.frames.depth := by
  obtain ⟨k, f, x, hm, hn, hf, hx, ha⟩ := found h hs v (v.rename g.procedure)
  have left : Exec.store slot v m =
      .ok () { m with frames := m.frames.setLocal k slot.offset v } :=
    eq_ok_of_wp (by rw [wp_store, hm]; simp)
  have right : Exec.store slot (v.rename g.procedure) n = .ok ()
      { n with frames := n.frames.setLocal (g.place k) slot.offset (v.rename g.procedure) } :=
    eq_ok_of_wp (by rw [wp_store, hn]; simp)
  rw [Sim, left, right]
  refine ⟨h.mirrors.with_frames ?_,
    by simp [FrameStack.setLocal, FrameStack.modify, FrameStack.depth]⟩
  refine h.mirrors.frames.modify (FrameStack.lt_depth hf) (fun _ => ⟨rfl, rfl⟩)
    (fun _ => ⟨rfl, rfl⟩) fun f x _ ha => ⟨ha.scope, ?_, ha.resumption⟩
  change x.locals.setIfInBounds slot.offset _ = (f.locals.setIfInBounds slot.offset v).map _
  rw [ha.locals, Array.map_setIfInBounds]

theorem enterAt (h : g.Abreast job m n) (hlimit : job.config.frameLimit = none) (scope : ScopeId)
    {link link' : Nat} (hlt : link < m.frames.depth)
    (hl : Leads n.frames.hollow link' (g.place link)) :
    Sim g (Exec.enterAt job scope link) (Exec.enterAt job scope link') m n fun d m' d' n' =>
      ∃ g', g.Agrees m.frames.depth m.frames.nextSerial g' ∧ g'.Mirrors m' n' ∧
        d = m.frames.depth ∧ d' = g'.place d ∧ m'.frames.depth = m.frames.depth + 1 := by
  have room (s : FrameStack) : s.checkRoom job.config.frameLimit = .ok () := by
    simp [FrameStack.checkRoom, hlimit]
  have left : Exec.enterAt job scope link m = .ok m.frames.depth { m with
      frames := m.frames.push scope (job.program.scopes.get scope).level (some link)
        (job.program.freshLocals scope) } :=
    eq_ok_of_wp (by simp [wp_enterAt, room])
  have right : Exec.enterAt job scope link' n = .ok n.frames.depth { n with
      frames := n.frames.push scope (job.program.scopes.get scope).level (some link')
        (job.program.freshLocals scope) } :=
    eq_ok_of_wp (by simp [wp_enterAt, room])
  rw [Sim, left, right]
  exact ⟨_, .opened g _ _, h.entered scope hlt hl, rfl, (if_pos rfl).symm, by simp⟩

theorem enter (h : g.Abreast job m n) (hlimit : job.config.frameLimit = none) (scope : ScopeId) :
    Sim g (Exec.enter job scope) (Exec.enter job scope) m n fun d m' d' n' =>
      ∃ g', g.Agrees m.frames.depth m.frames.nextSerial g' ∧ g'.Mirrors m' n' ∧
        d = m.frames.depth ∧ d' = g'.place d ∧ m'.frames.depth = m.frames.depth + 1 := by
  have hpos := h.sound.depth_pos
  have hpos' := h.sound'.depth_pos
  have top (s : FrameStack) (hs : 0 < s.depth) : s.top = .ok (s.depth - 1) := by
    have : s.frames.isEmpty = false := by
      simpa [FrameStack.depth, Array.size_pos_iff] using hs
    simp [FrameStack.top, this, FrameStack.depth]
  refine get (Sim.bind (Q := fun l m' l' n' => l = m.frames.depth - 1 ∧ m' = m ∧
    l' = n.frames.depth - 1 ∧ n' = n) ?_ ?_)
  · rw [top _ hpos, top _ hpos']
    exact ⟨rfl, rfl, rfl, rfl⟩
  · rintro l _ l' _ ⟨rfl, rfl, rfl, rfl⟩
    exact enterAt h hlimit scope (by omega) (h.mirrors.frames.top_leads hpos)

end

end Sim

end Exec

end Algol68
