import Algol68.Proofs.Loop.Entry
import Algol68.Proofs.Scope.Enclosure

/-! Iterations find the frame of the body as it was opened. Whatever an iteration did, the next bound test
is made with the frames of the loop innermost, so that the frame whose locals are made undefined again
is the body's, and the counter is stored in the frame below it. -/

namespace Algol68

open Exec (wp)

variable {job : Job} {units : NodeId → Prop}

/-- A frame with the locals of a newly opened one. -/
def Frame.renew (job : Job) (f : Frame) : Frame := { f with
  locals := f.locals.mapIdx fun k v =>
    match (job.program.scopes.get f.scope).locals[k]? with
    | some mode => Value.undefinedOf job.program.modes mode
    | none => v }

/-- The frame that is opened for a range inside the innermost one. -/
def Machine.newFrame (job : Job) (m : Machine) (scope : ScopeId) : Frame :=
  ⟨scope, (job.program.scopes.get scope).level, some (m.frames.depth - 1), m.frames.nextSerial,
    job.program.freshLocals scope, none⟩

namespace LoopParts

/-- The counter, if it is named, belongs to the range of the loop and not to that of its body. -/
def CountsOutside (p : Program) (parts : LoopParts) : Prop :=
  ∀ slot, parts.counter = some slot → slot.level = (p.scopes.get parts.scope).level ∧
    slot.level ≠ (p.scopes.get parts.bodyScope).level

/-- The counter, if it is named, is a local of the range of the loop, and the range of the body lies
inside it. -/
def HasCounter (p : Program) (parts : LoopParts) : Prop :=
  ∀ slot, parts.counter = some slot → slot.level = (p.scopes.get parts.scope).level ∧
    slot.level < (p.scopes.get parts.bodyScope).level ∧
    slot.offset < (p.scopes.get parts.scope).locals.size

/-- A loop of a well-scoped program has its counter. -/
theorem HasCounter.of_proper {p : Program} {s : ScopeId} {id : LoopId} (h : p.Proper s (.loop id)) :
    (p.tree.loopParts id).HasCounter p := by
  obtain ⟨-, body, declares, -⟩ := h
  intro slot hslot
  obtain ⟨level, offset⟩ := declares slot hslot
  have inside : p.level (p.tree.loopParts id).scope < p.level (p.tree.loopParts id).bodyScope := by
    rw [body.level]
    exact Nat.lt_succ_self _
  exact ⟨level.symm, level ▸ inside, offset⟩

theorem HasCounter.countsOutside {p : Program} {parts : LoopParts} (h : parts.HasCounter p) :
    parts.CountsOutside p := by
  intro slot hslot
  obtain ⟨level, inside, -⟩ := h slot hslot
  exact ⟨level, Nat.ne_of_lt inside⟩

end LoopParts

/-! Frames. -/

theorem Frame.renew_locals {f : Frame}
    (h : f.locals.size = (job.program.scopes.get f.scope).locals.size) :
    (f.renew job).locals = job.program.freshLocals f.scope := by
  apply Array.ext
  · simp [Frame.renew, Program.freshLocals, h]
  · intro k hk hk'
    have inside : k < (job.program.scopes.get f.scope).locals.size := by
      simpa [Program.freshLocals] using hk'
    simp [Frame.renew, Program.freshLocals, inside]

theorem Frame.eq_of_hollow {f g : Frame} (h : f.hollow = g.hollow) :
    f = { g with locals := f.locals } ∧ f.locals.size = g.locals.size := by
  simp only [Frame.hollow, Frame.mk.injEq] at h
  obtain ⟨scope, level, link, serial, locals, resumption⟩ := h
  constructor
  · cases f
    cases g
    simp_all
  · simpa using congrArg Array.size locals

theorem Machine.entered_frames (job : Job) (m : Machine) (scope : ScopeId) :
    (m.entered job scope).frames.frames = m.frames.frames.push (m.newFrame job scope) := rfl

theorem Machine.frame_of_outline {m m' : Machine} (h : m'.outline = m.outline) {k : Nat} {f : Frame}
    (hf : m.frames.frames[k]? = some f) :
    ∃ f', m'.frames.frames[k]? = some f' ∧ f' = { f with locals := f'.locals } ∧
      f'.locals.size = f.locals.size := by
  have hollow : m'.frames.hollow[k]? = m.frames.hollow[k]? :=
    congrArg (fun o : Outline => o.frames[k]?) h
  rw [FrameStack.hollow_getElem?, FrameStack.hollow_getElem?, hf] at hollow
  obtain ⟨f', hf', heq⟩ := Option.map_eq_some_iff.mp hollow
  obtain ⟨same, size⟩ := Frame.eq_of_hollow heq
  exact ⟨f', hf', same, size⟩

/-- The frames of a loop stand on top: `f`, that of its body, and right below it `g`, that of its counter,
to which it is linked. -/
structure FrameStack.Loops (job : Job) (i : Iteration) (s : FrameStack) (f g : Frame) : Prop where
  pos : 1 ≤ i.body
  depth : s.depth = i.body + 1
  body : s.frames[i.body]? = some f
  scope : f.scope = i.parts.bodyScope
  level : f.level = (job.program.scopes.get i.parts.bodyScope).level
  link : f.staticLink = some (i.body - 1)
  size : f.locals.size = (job.program.scopes.get i.parts.bodyScope).locals.size
  outer : s.frames[i.body - 1]? = some g
  outerLevel : g.level = (job.program.scopes.get i.parts.scope).level
  outerSize : g.locals.size = (job.program.scopes.get i.parts.scope).locals.size

namespace FrameStack

variable {s : FrameStack} {f g : Frame} {i : Iteration} {slot : Slot}

namespace Loops

/-- The counter is looked for in the frame of the body and then in the frame below it. -/
theorem resolve_eq (h : s.Loops job i f g) {level : Nat} (hg : g.level = level)
    (hf : f.level ≠ level) :
    s.resolve level = if level < f.level then .ok (i.body - 1) else fault (.missingFrame level) := by
  obtain ⟨b, hb⟩ : ∃ b, i.body = b + 1 := ⟨i.body - 1, by have := h.pos; omega⟩
  have size : s.frames.size = b + 2 := by
    have := h.depth
    rw [FrameStack.depth] at this
    omega
  have top : s.top = .ok (b + 1) := by
    have nonempty : s.frames.isEmpty = false := by
      simp [Array.isEmpty, size]
    rw [FrameStack.top, nonempty, size]
    rfl
  have body := h.body
  have link := h.link
  have outer := h.outer
  rw [hb] at body link outer
  rw [Nat.add_sub_cancel] at link outer
  rw [resolve, top, size, hb, Nat.add_sub_cancel]
  change s.resolveFrom level (b + 2) (b + 1) = _
  simp only [resolveFrom, body, if_neg hf, link, outer, if_pos hg]

theorem holder_eq_ok_iff (h : s.Loops job i f g) (hg : g.level = slot.level)
    (hf : f.level ≠ slot.level) (v : Value) {k : Nat} : s.holder slot v = .ok k ↔
      k = i.body - 1 ∧ slot.level < f.level ∧ slot.offset < g.locals.size := by
  rw [holder, h.resolve_eq hg hf]
  split
  · next hlevel =>
    simp only [bind, Except.bind, pure, Except.pure, h.outer, Option.bind_some]
    split
    · next hv =>
      have inside := (Array.getElem?_eq_some_iff.mp hv).1
      simp [hlevel, inside, eq_comm]
    · next hv =>
      have outside := Array.getElem?_eq_none_iff.mp hv
      constructor
      · intro h
        cases h
      · rintro ⟨-, -, inside⟩
        omega
  · next hlevel =>
    constructor
    · intro h
      cases h
    · rintro ⟨-, h', -⟩
      exact absurd h' hlevel

end Loops

/-- The frames when the counter was given its value. -/
def counted (s : FrameStack) (i : Iteration) : FrameStack :=
  match i.parts.counter with
  | some slot => s.setLocal (i.body - 1) slot.offset (.int i.counter)
  | none => s

/-- The frames when the body was made as new. -/
def renewed (s : FrameStack) (job : Job) (i : Iteration) : FrameStack :=
  if i.first then s else s.modify i.body (Frame.renew job)

end FrameStack

namespace Exec

variable {m m' : Machine} {f g : Frame} {i : Iteration}

theorem store_eq (slot : Slot) (v : Value) (m : Machine) : store slot v m =
    match m.frames.holder slot v with
    | .ok k => .ok () { m with frames := m.frames.setLocal k slot.offset v }
    | .error e => .error (.fault e) m := by
  change (lift (m.frames.holder slot v) >>= fun k => modify fun m =>
    { m with frames := m.frames.setLocal k slot.offset v } : Exec Unit) m = _
  cases m.frames.holder slot v <;> rfl

theorem renewBody_eq (job : Job) (i : Iteration) (m : Machine) :
    renewBody job i m = .ok () { m with frames := m.frames.renewed job i } := by
  rw [renewBody, FrameStack.renewed]
  cases i.first <;> rfl

/-- An iteration begins if its counter can be stored, and changes its two frames alone. -/
theorem begin_eq_ok_iff (h : m.frames.Loops job i f g) (hc : i.parts.CountsOutside job.program) :
    Exec.begin job i m = .ok () m' ↔
      (∀ slot, i.parts.counter = some slot → slot.level < f.level ∧ slot.offset < g.locals.size) ∧
        m' = { m with frames := (m.frames.counted i).renewed job i } := by
  cases hcounter : i.parts.counter with
  | none =>
    have begins : Exec.begin job i m = renewBody job i m := by
      simp only [Exec.begin, setCounter, hcounter]
      rfl
    rw [begins, renewBody_eq, FrameStack.counted, hcounter]
    simp [eq_comm]
  | some slot =>
    obtain ⟨level, outside⟩ := hc slot hcounter
    have hg : g.level = slot.level := h.outerLevel.trans level.symm
    have hf : f.level ≠ slot.level := fun heq => outside (heq.symm.trans h.level)
    have begins : Exec.begin job i m =
        (store slot (.int i.counter) >>= fun _ => renewBody job i : Exec Unit) m := by
      simp only [Exec.begin, setCounter, hcounter]
    simp only [begins, bind, EStateM.bind, store_eq, FrameStack.counted, hcounter]
    cases hh : m.frames.holder slot (.int i.counter) with
    | ok k =>
      obtain ⟨rfl, inside⟩ := (h.holder_eq_ok_iff hg hf _).mp hh
      simp only [renewBody_eq, EStateM.Result.ok.injEq, true_and]
      constructor
      · rintro rfl
        refine ⟨?_, rfl⟩
        rintro _ ⟨⟩
        exact inside
      · rintro ⟨-, rfl⟩
        rfl
    | error e =>
      constructor
      · intro h
        cases h
      · rintro ⟨inside, -⟩
        have found := (h.holder_eq_ok_iff hg hf (.int i.counter)).mpr ⟨rfl, inside slot rfl⟩
        cases hh.symm.trans found

theorem exists_begin (h : m.frames.Loops job i f g) (hc : i.parts.HasCounter job.program) :
    ∃ m', Exec.begin job i m = .ok () m' := by
  have inside : ∀ slot, i.parts.counter = some slot →
      slot.level < f.level ∧ slot.offset < g.locals.size := by
    intro slot hslot
    obtain ⟨-, level, offset⟩ := hc slot hslot
    rw [h.level, h.outerSize]
    exact ⟨level, offset⟩
  exact ⟨_, (begin_eq_ok_iff h hc.countsOutside).mpr ⟨inside, rfl⟩⟩

end Exec

namespace FrameStack

variable {s : FrameStack} {f g : Frame} {i j : Iteration}

theorem counted_getElem? (h : s.Loops job i f g) (k : Nat) : (s.counted i).frames[k]? =
    if k = i.body - 1 then
      some { g with locals := match i.parts.counter with
        | some slot => g.locals.setIfInBounds slot.offset (.int i.counter)
        | none => g.locals }
    else s.frames[k]? := by
  rw [counted]
  split
  · next slot _ =>
    rw [setLocal, modify, Array.getElem?_modify]
    by_cases hk : k = i.body - 1
    · rw [if_pos hk, hk, if_pos rfl, h.outer]
      rfl
    · rw [if_neg hk, if_neg (Ne.symm hk)]
  · by_cases hk : k = i.body - 1
    · rw [if_pos hk, hk, h.outer]
    · rw [if_neg hk]

theorem renewed_getElem? (s : FrameStack) (job : Job) (i : Iteration) (k : Nat) :
    (s.renewed job i).frames[k]? =
      if k = i.body ∧ ¬ i.first then (s.frames[k]?).map (Frame.renew job) else s.frames[k]? := by
  rw [renewed]
  split
  · next hfirst => rw [if_neg fun h => h.2 hfirst]
  · next hfirst =>
    rw [modify, Array.getElem?_modify]
    by_cases hk : k = i.body
    · rw [if_pos hk.symm, if_pos ⟨hk, hfirst⟩]
    · rw [if_neg (Ne.symm hk), if_neg fun h => hk h.1]

theorem counted_depth (s : FrameStack) (i : Iteration) : (s.counted i).depth = s.depth := by
  rw [counted]
  split
  · exact Array.size_modify ..
  · rfl

theorem renewed_depth (s : FrameStack) (job : Job) (i : Iteration) :
    (s.renewed job i).depth = s.depth := by
  rw [renewed]
  split
  · rfl
  · exact Array.size_modify ..

theorem counted_nextSerial (s : FrameStack) (i : Iteration) :
    (s.counted i).nextSerial = s.nextSerial := by
  rw [counted]
  split <;> rfl

theorem renewed_nextSerial (s : FrameStack) (job : Job) (i : Iteration) :
    (s.renewed job i).nextSerial = s.nextSerial := by
  rw [renewed]
  split <;> rfl

/-- When an iteration begins the locals of the body are undefined. -/
theorem Loops.renewed_body {f₁ : Frame} (h : s.Loops job i f g) (hfirst : i.first → f = f₁)
    (fresh : f₁.locals = job.program.freshLocals i.parts.bodyScope) :
    ((s.counted i).renewed job i).frames[i.body]? =
      some { f with locals := job.program.freshLocals i.parts.bodyScope } := by
  have other : i.body ≠ i.body - 1 := by
    have := h.pos
    omega
  rw [renewed_getElem?, counted_getElem? h, if_neg other, h.body]
  split
  · have renewed : (f.renew job).locals = job.program.freshLocals i.parts.bodyScope := by
      rw [Frame.renew_locals (by rw [h.size, h.scope]), h.scope]
    rw [← renewed]
    rfl
  · next hnot =>
    have first : i.first := by
      by_contra hfirst
      exact hnot ⟨rfl, hfirst⟩
    rw [← fresh, ← hfirst first]

/-- The frames of the loop stand on top when an iteration has begun. -/
theorem Loops.begun (h : s.Loops job i f g) : ∃ locals,
    ((s.counted i).renewed job i).Loops job i { f with locals := locals }
      { g with locals := match i.parts.counter with
        | some slot => g.locals.setIfInBounds slot.offset (.int i.counter)
        | none => g.locals } := by
  have outer : i.body - 1 ≠ i.body := by
    have := h.pos
    omega
  have body : ∃ locals, ((s.counted i).renewed job i).frames[i.body]? =
      some { f with locals := locals } ∧ locals.size = f.locals.size := by
    rw [renewed_getElem?, counted_getElem? h, if_neg outer.symm, h.body]
    split
    · exact ⟨(f.renew job).locals, rfl, Array.size_mapIdx ..⟩
    · exact ⟨f.locals, rfl, rfl⟩
  obtain ⟨locals, body, size⟩ := body
  refine ⟨locals, ?_⟩
  constructor
  · exact h.pos
  · rw [renewed_depth, counted_depth, h.depth]
  · exact body
  · exact h.scope
  · exact h.level
  · exact h.link
  · exact size.trans h.size
  · rw [renewed_getElem?, if_neg fun h => outer h.1, counted_getElem? h, if_pos rfl]
  · exact h.outerLevel
  · rw [← h.outerSize]
    split
    · exact Array.size_setIfInBounds ..
    · rfl
/-- Where the outline is the same, the frames of the loop stand in the same places. -/
theorem Loops.of_outline {m m' : Machine} (h : m.frames.Loops job i f g)
    (ho : m'.outline = m.outline) (hparts : j.parts = i.parts) (hbody : j.body = i.body) :
    ∃ f' g', m'.frames.Loops job j f' g' ∧ f' = { f with locals := f'.locals } := by
  obtain ⟨f', hf', same, size⟩ := Machine.frame_of_outline ho h.body
  obtain ⟨g', hg', same', size'⟩ := Machine.frame_of_outline ho h.outer
  have depth : m'.frames.depth = m.frames.depth := by
    have hlen := congrArg (fun o : Outline => o.frames.length) ho
    simpa [Machine.outline] using hlen
  refine ⟨f', g', ?_, same⟩
  constructor
  · rw [hbody]
    exact h.pos
  · rw [hbody, depth]
    exact h.depth
  · rw [hbody]
    exact hf'
  · rw [same, hparts]
    exact h.scope
  · rw [same, hparts]
    exact h.level
  · rw [same, hbody]
    exact h.link
  · rw [size, hparts]
    exact h.size
  · rw [hbody]
    exact hg'
  · rw [same', hparts]
    exact h.outerLevel
  · rw [size', hparts]
    exact h.outerSize

end FrameStack

namespace LoopParts

variable {parts : LoopParts} {i j : Iteration} {m m' m₁ : Machine} {n : NodeId} {id : LoopId}
  {rest : Agenda}

theorem entered_depth (job : Job) (m : Machine) (scope : ScopeId) :
    (m.entered job scope).frames.depth = m.frames.depth + 1 := Array.size_push ..

theorem Entered.parts_eq (h : Entered job parts m i m₁) : i.parts = parts := by
  cases h
  rfl

theorem Entered.loops (h : Entered job parts m i m₁) : ∃ m₂ m₃ : Machine,
    m₁.frames.Loops job i (m₃.newFrame job parts.bodyScope) (m₂.newFrame job parts.scope) := by
  obtain @⟨_, _, _, _, _, m₂, m₃, _, _, _, -, -, -, houter, hbody⟩ := h
  obtain ⟨rfl, pos, rfl⟩ := enter_eq_ok houter
  obtain ⟨rfl, -, rfl⟩ := enter_eq_ok hbody
  refine ⟨m₂, m₂.entered job parts.scope, ?_⟩
  have fresh (scope : ScopeId) :
      (job.program.freshLocals scope).size = (job.program.scopes.get scope).locals.size :=
    Array.size_map ..
  constructor
  · rw [entered_depth]
    exact Nat.le_add_left ..
  · exact entered_depth ..
  · rw [Machine.entered_frames]
    exact Array.getElem?_push_size
  · rfl
  · rfl
  · rfl
  · exact fresh parts.bodyScope
  · have below : (m₂.entered job parts.scope).frames.frames[m₂.frames.depth]? =
        some (m₂.newFrame job parts.scope) := Array.getElem?_push_size
    have other : m₂.frames.depth ≠ (m₂.entered job parts.scope).frames.frames.size := by
      have := entered_depth job m₂ parts.scope
      rw [FrameStack.depth] at this
      omega
    rw [entered_depth, Nat.add_sub_cancel, Machine.entered_frames, Array.getElem?_push, if_neg other,
      below]
  · rfl
  · exact fresh parts.scope

/-- Whenever the bound test of a loop is made, the outline is as it was when the loop was entered. -/
theorem Entered.outline (h : Entered job (job.program.tree.loopParts id) m i m₁)
    (hu : Underway job units (.elaborate n :: rest) m) (hk : job.program.tree.kind n = .loop id)
    (hr : Runs job ([.iterate i], m₁) ([.iterate j], m')) : m'.outline = m₁.outline := by
  have starts := (runs_loop_iff hk).mpr ⟨i, m₁, h, .refl⟩
  have consistent : Consistent job ([.iterate i] ++ (ending i.body ++
      [.yields (job.program.tree.mode n) m.stack.size] ++ rest)) m₁ :=
    (hu.runs (starts.append rest)).consistent.1
  obtain ⟨-, outline, -⟩ := consistent.of_append.runs hr
  exact outline

/-- Whenever the bound test of a loop is made, the frames of the loop are there as when it was
entered. -/
theorem exists_loops (hu : Underway job units (.elaborate n :: rest) m)
    (hk : job.program.tree.kind n = .loop id)
    (hr : Runs job ([.elaborate n], m)
      (.iterate j :: ending j.body ++ [.yields (job.program.tree.mode n) m.stack.size], m')) :
    j.parts = job.program.tree.loopParts id ∧ ∃ i m₁ f₁ g₁ f g,
      Entered job (job.program.tree.loopParts id) m i m₁ ∧ m₁.frames.Loops job i f₁ g₁ ∧
      f₁.locals = job.program.freshLocals (job.program.tree.loopParts id).bodyScope ∧
      f₁.resumption = none ∧ m'.frames.Loops job j f g ∧ f = { f₁ with locals := f.locals } ∧
      (j.first → f = f₁) := by
  obtain ⟨i, m₁, entered, hr⟩ := (runs_loop_iff hk).mp hr
  obtain ⟨k, arrives⟩ := Iteration.runs_iterate_iff.mp hr
  obtain ⟨through, rfl⟩ := Iteration.arrives_iff.mp arrives
  have outline := entered.outline hu hk hr
  obtain ⟨m₂, m₃, loops⟩ := entered.loops
  obtain ⟨f, g, loops', same⟩ := loops.of_outline outline (j := i.nth k) rfl rfl
  refine ⟨entered.parts_eq, i, m₁, _, _, f, g, entered, loops, rfl, rfl, loops', same, ?_⟩
  intro first
  have zero : k = 0 := by
    have first : (i.first && k == 0) = true := first
    simp only [Bool.and_eq_true, beq_iff_eq] at first
    exact first.2
  subst zero
  cases through
  exact Option.some.inj (loops'.body.symm.trans loops.body)

end LoopParts

/-- Iterations are isolated. Whenever a loop whose counter belongs to its own range begins an iteration, the
next task is its `while` part, or its `do` part if there is none. The frame of the body is then innermost
and is the frame that was opened for it when the loop was entered, with its locals undefined as they were
then; since the bound test its locals alone were changed, in the frame of the loop the counter alone, and
in no other frame and nowhere else in the machine anything. Where the counter is a local of the range of
the loop, the iteration does begin. -/
theorem iterations_isolated {j : Iteration} {m m' : Machine} {n : NodeId} {id : LoopId} {rest : Agenda}
    (hu : Underway job units (.elaborate n :: rest) m) (hk : job.program.tree.kind n = .loop id)
    (hc : (job.program.tree.loopParts id).CountsOutside job.program)
    (hr : Runs job ([.elaborate n], m) (.iterate j :: .leave j.body :: .leave (j.body - 1) ::
      [.yields (job.program.tree.mode n) m.stack.size], m'))
    (hj : j.admits) :
    (∀ y, Does job ([.iterate j], m') y →
      y.1.head? = some (match j.parts.whilePart with
        | some enquiry => .clause enquiry true
        | none => .clause j.parts.doPart false) ∧
      y.2.frames.depth = j.body + 1 ∧
      (∃ i m₁ f, LoopParts.Entered job (job.program.tree.loopParts id) m i m₁ ∧
        m₁.frames.frames[i.body]? = some f ∧ f.scope = j.parts.bodyScope ∧
        f.locals = job.program.freshLocals j.parts.bodyScope ∧ f.resumption = none ∧
        y.2.frames.frames[j.body]? = some f) ∧
      (∃ f, m'.frames.frames[j.body]? = some f ∧ y.2.frames.frames[j.body]? =
        some { f with locals := job.program.freshLocals j.parts.bodyScope }) ∧
      (∃ g, m'.frames.frames[j.body - 1]? = some g ∧ y.2.frames.frames[j.body - 1]? =
        some { g with locals := match j.parts.counter with
          | some slot => g.locals.setIfInBounds slot.offset (.int j.counter)
          | none => g.locals }) ∧
      (∀ k, k ≠ j.body → k ≠ j.body - 1 → y.2.frames.frames[k]? = m'.frames.frames[k]?) ∧
      y.2 = { m' with frames := ⟨y.2.frames.frames, m'.frames.nextSerial⟩ }) ∧
    ((job.program.tree.loopParts id).HasCounter job.program → ∃ y, Does job ([.iterate j], m') y) := by
  obtain ⟨hparts, i, m₁, f₁, g₁, f, g, entered, loops₁, fresh, vacant, loops, same, hfirst⟩ :=
    LoopParts.exists_loops hu hk hr
  rw [← hparts] at hc fresh
  have apart : j.body - 1 ≠ j.body := by
    have := loops.pos
    omega
  constructor
  · rintro ⟨Y, m''⟩ hs
    have he : (Task.iterate j).exec job m' = .ok Y m'' := does_single_iff.mp hs
    rw [Iteration.exec_iterate, if_pos hj] at he
    split at he
    · next hb =>
      cases he
      obtain ⟨-, rfl⟩ := (Exec.begin_eq_ok_iff loops hc).mp hb
      have body := loops.renewed_body hfirst fresh
      have whole : { f with locals := job.program.freshLocals j.parts.bodyScope } = f₁ := by
        rw [same, ← fresh]
      refine ⟨j.opening_head?, ?_, ⟨i, m₁, f₁, entered, loops₁.body, ?_, fresh, vacant, ?_⟩,
        ⟨f, loops.body, body⟩, ⟨g, loops.outer, ?_⟩, fun k hbody houter => ?_, ?_⟩
      · rw [FrameStack.renewed_depth, FrameStack.counted_depth, loops.depth]
      · rw [← loops.scope, same]
      · rw [← whole]
        exact body
      · rw [FrameStack.renewed_getElem?, if_neg fun h => apart h.1,
          FrameStack.counted_getElem? loops, if_pos rfl]
      · rw [FrameStack.renewed_getElem?, if_neg fun h => hbody h.1,
          FrameStack.counted_getElem? loops, if_neg houter]
      · rw [← FrameStack.counted_nextSerial m'.frames j, ← FrameStack.renewed_nextSerial _ job j]
    · cases he
  · intro hcounter
    rw [← hparts] at hcounter
    obtain ⟨m₂, begins⟩ := Exec.exists_begin loops hcounter
    obtain ⟨x, hs, -⟩ := Iteration.Goes.of_begin hj begins
    exact ⟨x, hs⟩

/-- The program `FOR i TO 2 DO INT n = i; GOTO l; l: SKIP OD`. -/
def twice : Job where
  program := {
    tree := {
      nodes := #[⟨.identifier ⟨1, 0⟩, .int, .dummy⟩, ⟨.identityDeclaration ⟨2, 0⟩ ⟨0⟩, .void, .dummy⟩,
        ⟨.separator, .void, .dummy⟩, ⟨.jump ⟨0⟩, .void, .dummy⟩, ⟨.skip, .void, .dummy⟩,
        ⟨.labeled ⟨0⟩ ⟨4⟩, .void, .dummy⟩, ⟨.serialClause ⟨2⟩ ⟨0, 5⟩, .void, .dummy⟩,
        ⟨.literal (.int 2), .int, .dummy⟩, ⟨.loop ⟨0⟩, .void, .dummy⟩]
      lists := #[⟨1⟩, ⟨2⟩, ⟨3⟩, ⟨2⟩, ⟨5⟩]
      modeLists := #[]
      loops := #[⟨⟨1⟩, ⟨2⟩, some ⟨1, 0⟩, none, none, some ⟨7⟩, none, ⟨6⟩, none⟩]
      alternatives := #[] }
    modes := .new
    scopes := ⟨#[.standard, ⟨some .standard, 1, #[.int], false⟩, ⟨some ⟨1⟩, 2, #[.int], true⟩]⟩
    labels := ⟨#[⟨⟨0⟩, ⟨2⟩, some ⟨6⟩, some ⟨5⟩⟩]⟩
    interner := .new
    root := ⟨8⟩
    environs := #[] }
  oracle := ModeTable.oracle .new
  config := .default

theorem twice_hasCounter : (twice.program.tree.loopParts ⟨0⟩).HasCounter twice.program := by
  rintro _ ⟨⟩
  decide

/-- The second iteration of `twice` begins with the local of the body undefined, though the first, which
made a jump, left 1 in it. -/
theorem twice_isolated : ∃ rest m j m' y f,
    Underway twice (fun _ => False) (.elaborate ⟨8⟩ :: rest) m ∧
    Runs twice ([.elaborate ⟨8⟩], m) (.iterate j :: .leave j.body :: .leave (j.body - 1) ::
      [.yields (twice.program.tree.mode ⟨8⟩) m.stack.size], m') ∧
    ¬ j.first ∧ Does twice ([.iterate j], m') y ∧ m'.frames.frames[j.body]? = some f ∧
    f.locals = #[.int 1] ∧ y.2.frames.frames[j.body]? = some { f with locals := #[.undefined .int] } := by
  obtain ⟨rest, m, hd, j, m', hd', hf, hj, fresh, hl⟩ : ∃ rest m,
      drive twice 1 [.unit twice.program.root] (Session.new twice none false).machine =
        .unfinished (.elaborate ⟨8⟩ :: rest) m ∧
      ∃ j m', drive twice 25 [.elaborate ⟨8⟩] m = .unfinished (.iterate j :: .leave j.body ::
        .leave (j.body - 1) :: [.yields (twice.program.tree.mode ⟨8⟩) m.stack.size]) m' ∧
      j.first = false ∧ j.admits = true ∧
      twice.program.freshLocals j.parts.bodyScope = #[.undefined .int] ∧
      (m'.frames.frames[j.body]?).map (·.locals) = some #[.int 1] := by
    refine ⟨_, _, rfl, _, _, by with_unfolding_all rfl, ?_, ?_, ?_, ?_⟩
    · with_unfolding_all rfl
    · with_unfolding_all rfl
    · with_unfolding_all rfl
    · with_unfolding_all rfl
  obtain ⟨f, hl, hv⟩ := Option.map_eq_some_iff.mp hl
  have hu : Underway twice (fun _ => False) (.elaborate ⟨8⟩ :: rest) m :=
    .runs (.run (.new none false)) (runs_of_unfinished hd)
  obtain ⟨begins, exists_begun⟩ := iterations_isolated hu rfl twice_hasCounter.countsOutside
    (runs_of_unfinished hd') hj
  obtain ⟨y, hs⟩ := exists_begun twice_hasCounter
  obtain ⟨-, -, -, ⟨f', hl', hv'⟩, -⟩ := begins y hs
  cases hl.symm.trans hl'
  rw [fresh] at hv'
  exact ⟨rest, m, j, m', y, f, hu, runs_of_unfinished hd', by simp [hf], hs, hl, hv, hv'⟩

end Algol68
