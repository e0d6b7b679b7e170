import Algol68.Proofs.Scope.Designation

/-! How long a routine value can be called. The environ of a routine is the innermost of the frames
that held its non-locals when the value was elaborated, or the standard environ where it has none, so
the routine can be called exactly as long as all of these frames are open. -/

namespace Algol68

open Outline
open Relation (ReflTransGen)

namespace Program

variable (p : Program)

/-- A node of this kind finds something at the level of a range: the slot of an identifier, the slot of
a user's operator, or the range of the label that is jumped to. -/
inductive Mentions (d : ScopeId) : NodeKind → Prop where
  | identifier {slot : Slot} (h : slot.level = p.level d) : Mentions d (.identifier slot)
  | formula {slot : Slot} (h : slot.level = p.level d) (left right : NodeId) :
    Mentions d (.formula (.user slot) left right)
  | monadic {slot : Slot} (h : slot.level = p.level d) (operand : NodeId) :
    Mentions d (.monadic (.user slot) operand)
  | jump {label : LabelId} (h : p.level (p.labels.get label).scope = p.level d) :
    Mentions d (.jump label)

/-- A range outside of a routine text that holds a non-local of the routine: some part of the body, be
it in a nested routine text, uses a slot of the range or jumps to a label of it. -/
def NonLocal (r : NodeId) (d : ScopeId) : Prop :=
  ∃ s q params body c, p.tree.kind r = .routineText q params body ∧ p.Child q s ∧ p.Encloses d s ∧
    p.Below (q, body) c ∧ p.Encloses d c.1 ∧ p.Mentions d (p.tree.kind c.2)

variable {p} {starts : NodeId → Prop} {s q d : ScopeId} {r body : NodeId} {k : Nat}

/-- These are the levels that the environ of a routine text is found by. -/
theorem mentions_iff {kind : NodeKind} :
    p.Mentions d kind ↔ p.level d ∈ Tree.levels p.scopes p.labels kind := by
  constructor
  · rintro (h | ⟨h, -, -⟩ | ⟨h, -⟩ | h) <;> exact List.mem_singleton.mpr h.symm
  · intro h
    cases kind with
    | identifier slot => exact .identifier (List.mem_singleton.mp h).symm
    | formula op left right =>
      cases op with
      | standard op => cases h
      | user slot => exact .formula (List.mem_singleton.mp h).symm left right
    | monadic op operand =>
      cases op with
      | standard op => cases h
      | user slot => exact .monadic (List.mem_singleton.mp h).symm operand
    | jump label => exact .jump (List.mem_singleton.mp h).symm
    | _ => cases h

theorem levels_uses {kind : NodeKind} {l : Nat} (h : l ∈ Tree.levels p.scopes p.labels kind) :
    l ∈ p.uses kind := by
  cases kind with
  | identityDeclaration | variableDeclaration => cases h
  | _ => exact h

/-- The non-locals of a routine lie in the ranges around its text that its body needs. -/
theorem WellScoped.nonLocal_iff (hw : p.WellScoped starts) (h : p.Stands starts s r)
    (hr : p.tree.kind r = .routineText q k body) : p.NonLocal r d ↔ p.Needs s q body d := by
  have hq : p.Child q s := by
    have := hw.proper h
    rwa [hr] at this
  constructor
  · rintro ⟨s', q', k', body', c, hr', hq', hd, hc, hdc, hl⟩
    cases hr.symm.trans hr'
    cases hq.parent.symm.trans hq'.parent
    exact ⟨hd, c, hc, hdc, levels_uses (mentions_iff.mp hl)⟩
  · intro hn
    obtain ⟨c, hc, hdc, hl⟩ := hw.refers h hr hn
    exact ⟨s, q, k, body, c, hr, hq, hn.encloses, hc, hdc, mentions_iff.mpr hl⟩

end Program

/-- A place on a chain whose level is resolved is at that level. -/
theorem FrameStack.resolveFrom_level {s : FrameStack} {level links i k : Nat}
    (h : s.resolveFrom level links i = .ok k) : ∃ f, s.hollow[k]? = some f ∧ f.level = level := by
  induction links generalizing i with
  | zero => cases h
  | succ links ih =>
    simp only [resolveFrom] at h
    split at h
    · cases h
    · next x hx =>
      split at h
      · next hl =>
        cases h
        exact ⟨x.hollow, by simp [hollow_getElem?, hx], hl⟩
      · split at h
        · split at h
          · exact ih h
          · cases h
        · cases h

theorem FrameStack.resolve_level {s : FrameStack} {level k : Nat} (h : s.resolve level = .ok k) :
    ∃ f, s.hollow[k]? = some f ∧ f.level = level := by
  simp only [resolve, top] at h
  split at h
  · cases h
  · exact resolveFrom_level h

variable {job : Job} {starts units : NodeId → Prop} {L L' : Lexicon} {m m' : Machine} {t : Task}
  {A A' rest work : Agenda} {fs gs : List Frame} {next : Nat}

/-- The frame of a range at level zero is that of the standard environ. -/
theorem Outline.Sound.eq_base {o : Outline} (h : o.Sound job next)
    (hn : Nested job.program o.frames) {i : Nat} {f : Frame} (hf : o.frames[i]? = some f)
    (hl : f.level = 0) : i = 0 ∧ f.serial = 0 := by
  cases i with
  | zero =>
    obtain ⟨g, hg, -, -, -, hs, -⟩ := h.base
    cases hf.symm.trans hg
    exact ⟨rfl, hs⟩
  | succ i =>
    obtain ⟨⟨l, -, hlink⟩, -⟩ := h.linked i f hf
    obtain ⟨-, g, -, -, hlt⟩ := hn.linked hf hlink
    rw [← hn.levels hf, hl] at hlt
    exact absurd hlt (Nat.not_lt_zero _)

/-! The activation of a handle is found at its place or nowhere. -/

/-- Wherever the activation of a handle is, it is at the place that the handle says. -/
def FrameHandle.Fixed (h : FrameHandle) (fs : List Frame) : Prop :=
  ∀ (i : Nat) (f : Frame), fs[i]? = some f → f.serial = h.serial → i = h.index

theorem FrameHandle.Fixed.outlast {h : FrameHandle} (hf : h.Fixed fs) (hlt : h.serial < next)
    (ho : Outlast next fs gs) : h.Fixed gs := by
  intro i g hg hs
  obtain ⟨f, hf', hk⟩ := (ho i g hg (by omega)).symm.exists_key (Nat.lt_succ_self i) hg
  simp only [Frame.key, Prod.mk.injEq] at hk
  exact hf i f hf' (hk.2.2.trans hs)

theorem FrameStack.isLive_iff {s : FrameStack} {h : FrameHandle} :
    s.isLive h = true ↔ ∃ f, s.hollow[h.index]? = some f ∧ f.serial = h.serial := by
  simp only [isLive, hollow_getElem?]
  cases s.frames[h.index]? with
  | none => simp
  | some x => simp [Frame.hollow]

/-- An activation that is closed is not there again later. -/
theorem Outlast.stale {s s' : FrameStack} {h : FrameHandle} (ho : Outlast next s.hollow s'.hollow)
    (hlt : h.serial < next) (hs : s.isLive h = false) : s'.isLive h = false := by
  rw [Bool.eq_false_iff] at hs ⊢
  intro hl
  obtain ⟨g, hg, hgs⟩ := FrameStack.isLive_iff.mp hl
  obtain ⟨f, hf, hk⟩ := (ho _ g hg (by omega)).symm.exists_key (Nat.lt_succ_self _) hg
  simp only [Frame.key, Prod.mk.injEq] at hk
  exact hs (FrameStack.isLive_iff.mpr ⟨f, hf, hk.2.2.trans hgs⟩)

/-! Where the environ of a routine value comes from. -/

/-- The environ of every routine value is the frame of one of its non-locals that was seen where the
value was elaborated, or the standard environ; and all of its non-locals were seen. -/
structure Lexicon.Grounded (p : Program) (L : Lexicon) (fs : List Frame) : Prop where
  fixed : ∀ text environ V, L.held text environ V → environ.Fixed fs
  seen : ∀ text environ V, L.held text environ V → ∀ d, p.NonLocal text d → ∃ k, V d = some k
  origin : ∀ text environ V, L.held text environ V → environ = ⟨0, 0⟩ ∨
    ∃ d, p.NonLocal text d ∧ V d = some environ.serial

/-- Where a routine text is elaborated, its non-locals are seen in the frames that their levels are
resolved to. -/
theorem Recorded.sees_nonLocal (hw : job.program.WellScoped starts)
    {text : NodeId} {scope : ScopeId} {params : Nat} {body : NodeId} {d : ScopeId}
    (hk : job.program.tree.kind text = .routineText scope params body)
    (h : Recorded job starts (.elaborate text :: rest) m L) (hd : job.program.NonLocal text d) :
    ∃ k f, m.frames.resolve (job.program.level d) = .ok k ∧ m.frames.frames[k]? = some f ∧
      f.scope = d ∧ L.here m d = some f.serial := by
  obtain ⟨s, hs⟩ := h.state.placed.1
  have htop : m.outline.top = m.frames.depth - 1 := by simp [Outline.top, Machine.outline]
  obtain ⟨g, hg, -⟩ := hs.inside
  have agrees := h.fits.here hg
  have hbody : (scope, body) ∈ job.program.standings s (job.program.tree.kind text) := by
    simp [hk, Program.standings]
  obtain ⟨k, x, hl, hx, rfl⟩ :=
    hs.supports.part hbody d ((hw.nonLocal_iff hs.stands hk).mp hd)
  have hpos : 0 < m.frames.depth := by
    rw [← FrameStack.hollow_length]
    exact h.state.consistent.sound.length_pos
  have resolved := FrameStack.resolve_eq h.state.nested hpos (htop ▸ hl) hx
  have seen := agrees k x hl hx
  change m.frames.hollow[k]? = some x at hx
  rw [FrameStack.hollow_getElem?] at hx
  obtain ⟨y, hy, rfl⟩ := Option.map_eq_some_iff.mp hx
  exact ⟨k, y, resolved, hy, rfl, seen⟩

namespace Lexicon.Grounded

variable {p : Program}

theorem of_held (h : L.Grounded p fs) (hL : L'.held = L.held) : L'.Grounded p fs := by
  constructor
  · rw [hL]
    exact h.fixed
  · rw [hL]
    exact h.seen
  · rw [hL]
    exact h.origin

theorem outlast (h : L.Grounded p fs)
    (hlt : ∀ text environ V, L.held text environ V → environ.serial < next)
    (ho : Outlast next fs gs) : L.Grounded p gs :=
  ⟨fun text environ V hV => (h.fixed text environ V hV).outlast (hlt text environ V hV) ho,
    h.seen, h.origin⟩

theorem standard : Lexicon.standard.Grounded p fs :=
  ⟨fun _ _ _ h => h.elim, fun _ _ _ h => h.elim, fun _ _ _ h => h.elim⟩

/-- The environs of the values of a routine text come from where it is elaborated. -/
theorem elaborated (hw : job.program.WellScoped starts) (hj : job.program.JumpsOutward starts)
    {text : NodeId} {scope : ScopeId} {params : Nat} {body : NodeId} {environ : FrameHandle}
    (hk : job.program.tree.kind text = .routineText scope params body)
    (hm : Recorded job starts (.elaborate text :: rest) m L)
    (he : (do m.frames.handle (← m.frames.resolve (job.program.environLevel text))) = .ok environ)
    (h : L.Grounded job.program m.frames.hollow) :
    (L.elaborated text environ (L.here m)).Grounded job.program m.frames.hollow := by
  obtain ⟨s, hs⟩ := hm.state.placed.1
  obtain ⟨i, f, hr, hl, hf, hencloses, -⟩ := hs.environ hw hj hk hm.state.nested
  have htop : m.outline.top = m.frames.depth - 1 := by simp [Outline.top, Machine.outline]
  obtain ⟨g, hg, -⟩ := hs.inside
  have agrees := hm.fits.here hg
  -- the environ is the frame that the level was resolved to
  have henv : environ = ⟨i, f.serial⟩ := by
    have there := hf
    rw [FrameStack.hollow_getElem?] at there
    obtain ⟨x, hx, rfl⟩ := Option.map_eq_some_iff.mp there
    simp only [hr, Bind.bind, Except.bind, FrameStack.handle, hx, Except.ok.injEq] at he
    rw [← he]
    rfl
  have hlevel : f.level = job.program.environLevel text := by
    obtain ⟨x, hx, hxl⟩ := FrameStack.resolve_level hr
    cases hf.symm.trans hx
    exact hxl
  refine ⟨fun r e V hV => ?_, fun r e V hV => ?_, fun r e V hV => ?_⟩
  · rcases hV with hV | ⟨rfl, rfl, rfl⟩
    · exact h.fixed r e V hV
    · rw [henv]
      intro j x hx hxs
      exact hm.state.consistent.sound.index_eq hx hf hxs
  · rcases hV with hV | ⟨rfl, rfl, rfl⟩
    · exact h.seen r e V hV
    · intro d hd
      obtain ⟨-, x, -, -, -, hx⟩ := hm.sees_nonLocal hw hk hd
      exact ⟨_, hx⟩
  · rcases hV with hV | ⟨rfl, rfl, rfl⟩
    · exact h.origin r e V hV
    · rw [henv]
      rcases hw.environ_needed hj hs.stands hk with hz | ⟨d, hd, hdl⟩
      · obtain ⟨rfl, hserial⟩ :=
          hm.state.consistent.sound.eq_base hm.state.nested hf (hlevel.trans hz)
        exact .inl (by rw [hserial])
      · -- the deepest range that is needed is that of the environ
        have hsame : d = f.scope := by
          refine hd.encloses.eq_of_level hencloses ?_
          rw [hdl, ← hlevel]
          exact hm.state.nested.levels hf
        subst hsame
        rw [htop] at agrees
        exact .inr ⟨_, (hw.nonLocal_iff hs.stands hk).mpr hd, agrees i f hl hf⟩

end Lexicon.Grounded

theorem Consistent.outlast (h : Consistent job A m) (hs : Does job (A, m) (A', m')) :
    Outlast m.frames.nextSerial m.frames.hollow m'.frames.hollow := by
  cases hs with
  | done he => exact (Exec.wp_ok (Exec.exec_turns h.sound h.along.1) he).outlast
  | resumed he hu =>
    obtain ⟨hrest, ho⟩ := h.of_error he
    obtain ⟨j, before, c, after, work, rfl, rfl, -, -, -, -, rfl⟩ := unwind_resumed hu
    have hf : (c.caught j (Machine.undo _ before)).frames.hollow = _ :=
      congrArg Outline.frames (hrest.caught (j := j))
    rw [hf, ← ho]
    exact .passAll _ m.outline before

theorem Consistent.outlast_runs (h : Consistent job A m) (hr : Runs job (A, m) (A', m')) :
    Outlast m.frames.nextSerial m.frames.hollow m'.frames.hollow := by
  generalize hx : (A, m) = x at hr
  generalize hy : (A', m') = y at hr
  induction hr generalizing A' m' with
  | refl =>
    cases hx.trans hy.symm
    exact .refl _ _
  | @tail y z hr hs ih =>
    obtain ⟨A₁, m₁⟩ := y
    subst hx hy
    obtain ⟨hc, -, hn⟩ := h.runs hr
    exact (ih rfl).trans hn (hc.outlast hs)

section

variable (hw : job.program.WellScoped starts) (hj : job.program.JumpsOutward starts)

include hw hj

theorem Recorded.grounded_step (h : Recorded job starts A m L)
    (hg : L.Grounded job.program m.frames.hollow) (hs : Recounts job (A, m, L) (A', m', L')) :
    L'.Grounded job.program m'.frames.hollow := by
  have moved : L.Grounded job.program m'.frames.hollow :=
    hg.outlast (fun text environ V hV => (h.fits.held text environ V hV).1)
      (h.state.consistent.outlast hs.does)
  cases hs with
  | done he hl =>
    cases hl with
    | entered | called => exact moved.of_held rfl
    | elaborated hk henv =>
      obtain ⟨still, -⟩ := Lexicon.environ_of_exec hw hj h.state hk he
      have hf : m'.frames.hollow = m.frames.hollow := congrArg Outline.frames still.outline
      rw [hf]
      exact .elaborated hw hj hk h henv hg
    | other => exact moved
  | resumed he hu => exact moved

theorem Recorded.grounded_runs (h : Recorded job starts A m L)
    (hg : L.Grounded job.program m.frames.hollow)
    (hr : ReflTransGen (Recounts job) (A, m, L) (A', m', L')) :
    L'.Grounded job.program m'.frames.hollow := by
  generalize hx : (A, m, L) = x at hr
  generalize hy : (A', m', L') = y at hr
  induction hr generalizing A' m' L' with
  | refl =>
    cases hx.trans hy.symm
    exact hg
  | @tail y z hr hs ih =>
    obtain ⟨A₁, m₁, L₁⟩ := y
    subst hx hy
    exact (h.runs hw hj hr).grounded_step hw hj (ih rfl) hs

/-- An action keeps the environs of routine values where they come from. -/
theorem Machine.Ready.grounded_of_ended {s : Session} {steps : Nat} {unit : NodeId}
    (hs : s.job = job) (h : s.machine.Ready job starts L)
    (hg : L.Grounded job.program s.machine.frames.hollow) (hu : starts unit)
    (he : (s.runUnit steps unit).1.ended)
    (hr : ReflTransGen (Recounts job) ([.unit unit], s.machine, L) (A, m, L'))
    (hend : Final job (A, m)) :
    L'.Grounded job.program (s.runUnit steps unit).2.machine.frames.hollow := by
  have start := h.recorded hw hu
  have fits := (start.runs hw hj hr).fits
  exact (start.grounded_runs hw hj hg hr).outlast (fun text environ V hV => (fits.held text environ V hV).1)
    (h.leaves_of_ended hw hj hs hu he hr hend).outlast

end

theorem Machine.Ready.grounded_atRest {s : Session} (h : s.machine.Ready job starts L)
    (hg : L.Grounded job.program s.machine.frames.hollow) :
    L.Grounded job.program s.atRest.machine.frames.hollow := by
  refine hg.outlast (fun text environ V hV => (h.fits.held text environ V hV).1) ?_
  simp only [Session.atRest, FrameStack.hollow_truncate]
  exact .take _ _ _

section

variable (hw : job.program.WellScoped (job.starts units))
  (hj : job.program.JumpsOutward (job.starts units))

include hw hj

theorem Session.Recounted.grounded {s : Session} (h : s.Recounted job units L) :
    L.Grounded job.program s.machine.frames.hollow := by
  induction h with
  | new source keepsText => exact .standard
  | run h steps he hr hend ih =>
    obtain ⟨rfl, hready⟩ := h.ready hw hj
    exact hready.grounded_of_ended hw hj rfl ih (.inl rfl) he hr hend
  | resume h steps unit hu he hr hend ih =>
    obtain ⟨rfl, hready⟩ := h.ready hw hj
    exact (hready.atRest hw.standard).grounded_of_ended hw hj rfl (hready.grounded_atRest ih)
      (.inr hu) he hr hend
  | clear h ih => exact ih

theorem Chronicle.grounded (h : Chronicle job units A m L) :
    L.Grounded job.program m.frames.hollow := by
  induction h with
  | run h => exact h.grounded hw hj
  | resume h hu => exact (h.ready hw hj).2.grounded_atRest (h.grounded hw hj)
  | step h hs ih => exact (h.recorded hw hj).grounded_step hw hj ih hs

end

/-! Calls. -/

theorem Exec.callRoutine_refused {text : NodeId} {environ : FrameHandle}
    (hl : m.frames.isLive environ = false) (args : List Value) (site : NodeId) :
    callRoutine job text environ args site m = .error (.fault (.of .scopeViolation)) m := by
  apply eq_error_of_wp
  simp [callRoutine, hl]

theorem Exec.callRoutine_called {text : NodeId} {environ : FrameHandle} {scope : ScopeId}
    {params : Nat} {body : NodeId}
    (hk : job.program.tree.kind text = .routineText scope params body)
    (hl : m.frames.isLive environ = true) (args : List Value) (site : NodeId) :
    ∃ m', callRoutine job text environ args site m =
      .ok [.enterRoutine scope environ.index args body, .endCall] m' := by
  have called : wp (callRoutine job text environ args site)
      (fun work _ => work = [.enterRoutine scope environ.index args body, .endCall])
      (fun _ _ => False) m := by
    simp [callRoutine, hk, hl]
  obtain ⟨_, m', hm', rfl⟩ := exists_of_wp called
  exact ⟨m', hm'⟩

/-- The activation of a range that was seen in a view is no longer open. -/
def View.Lost (V : View) (s : FrameStack) (d : ScopeId) : Prop :=
  ∃ k, V d = some k ∧ ∀ f ∈ s.frames, f.serial ≠ k

/-- The environ of a routine value is open as long as all frames that held its non-locals are. -/
theorem Recorded.live_iff (hw : job.program.WellScoped starts) (h : Recorded job starts A m L)
    (hg : L.Grounded job.program m.frames.hollow) {text : NodeId} {environ : FrameHandle} {V : View}
    (hc : m.Callable job starts L.Knows (.routine text environ)) (hV : L.held text environ V) :
    m.frames.isLive environ = false ↔
      ∃ d, job.program.NonLocal text d ∧ V.Lost m.frames d := by
  obtain ⟨-, -, s, q, params, body, hstands, hk, hsup⟩ := hc
  constructor
  · intro hl
    have gone : ∀ f ∈ m.frames.frames, f.serial ≠ environ.serial := by
      intro f hf hs
      obtain ⟨i, hi⟩ := Array.mem_iff_getElem?.mp hf
      have there : m.frames.hollow[i]? = some f.hollow := by simp [FrameStack.hollow_getElem?, hi]
      obtain rfl := hg.fixed text environ V hV i _ there hs
      rw [FrameStack.isLive_iff.mpr ⟨_, there, hs⟩] at hl
      cases hl
    rcases hg.origin text environ V hV with rfl | ⟨d, hd, hVd⟩
    · obtain ⟨f, hf, -, -, -, hserial, -⟩ := h.state.consistent.sound.base
      have hf : m.frames.hollow[0]? = some f := hf
      rw [FrameStack.hollow_getElem?] at hf
      obtain ⟨x, hx, rfl⟩ := Option.map_eq_some_iff.mp hf
      exact absurd hserial (gone x (Array.mem_of_getElem? hx))
    · exact ⟨d, hd, _, hVd, gone⟩
  · rintro ⟨d, hd, k, hVd, hlost⟩
    rw [Bool.eq_false_iff]
    intro hl
    obtain ⟨f, hf, hs⟩ := FrameStack.isLive_iff.mp hl
    obtain ⟨-, supports⟩ := hsup f hf hs
    obtain ⟨i, x, hi, hx, rfl⟩ := supports d ((hw.nonLocal_iff hstands hk).mp hd)
    have agrees := (h.fits.held text environ V hV).2 f hf hs
    have same := Option.some.inj ((agrees i x hi hx).symm.trans hVd)
    rw [FrameStack.hollow_getElem?] at hx
    obtain ⟨y, hy, rfl⟩ := Option.map_eq_some_iff.mp hx
    exact hlost y (Array.mem_of_getElem? hy) same

/-- A procedure that can be called just as long as the activations are open that held its non-locals
where it was elaborated. -/
def CallableWhile (job : Job) (L : Lexicon) (m : Machine) : Procedure → Prop
  | .standard _ => True
  | .routine text environ =>
    environ.serial < m.frames.nextSerial ∧ L.Knows text environ ∧ ∀ V, L.held text environ V →
      (∀ d, job.program.NonLocal text d → ∃ k, V d = some k) ∧ ∀ args site,
        (Exec.callRoutine job text environ args site m = .error (.fault (.of .scopeViolation)) m ↔
          ∃ d, job.program.NonLocal text d ∧ V.Lost m.frames d) ∧
        ((∀ d, ¬ job.program.NonLocal text d) →
          ∃ work m', Exec.callRoutine job text environ args site m = .ok work m')

theorem Recorded.callableWhile (hw : job.program.WellScoped starts) (h : Recorded job starts A m L)
    (hg : L.Grounded job.program m.frames.hollow) {r : Procedure}
    (hc : m.Callable job starts L.Knows r) : CallableWhile job L m r := by
  cases r with
  | standard _ => trivial
  | routine text environ =>
    refine ⟨hc.1, hc.2.1, fun V hV => ⟨hg.seen text environ V hV, fun args site => ?_⟩⟩
    have live := h.live_iff hw hg hc hV
    obtain ⟨-, -, s, q, params, body, -, hk, -⟩ := hc
    constructor
    · rw [← live]
      constructor
      · intro hcall
        rw [Bool.eq_false_iff]
        intro hl
        obtain ⟨m', hm'⟩ := Exec.callRoutine_called hk hl args site
        cases hcall.symm.trans hm'
      · exact fun hl => Exec.callRoutine_refused hl args site
    · intro hn
      cases hl : m.frames.isLive environ with
      | true =>
        obtain ⟨m', hm'⟩ := Exec.callRoutine_called hk hl args site
        exact ⟨_, m', hm'⟩
      | false =>
        obtain ⟨d, hd, -⟩ := live.mp hl
        exact absurd hd (hn d)

/-! Later states. -/

namespace Session

/-- A session about to run a unit: the program, or a unit to resume with. -/
inductive Begins (job : Job) (units : NodeId → Prop) : Session → NodeId → Prop where
  | run {s : Session} (h : Reached job units s) : Begins job units s job.program.root
  | resume {s : Session} (h : Reached job units s) {unit : NodeId} (hu : units unit) :
      Begins job units s.atRest unit

/-- What becomes of a session between two actions. -/
inductive Rests (s : Session) : Session → Prop where
  | refl : Rests s s
  | clear {s' : Session} (h : Rests s s') : Rests s s'.clear
  | atRest {s' : Session} (h : Rests s s') : Rests s s'.atRest

theorem Rests.outlast {s s' : Session} (h : s.Rests s') (next : Nat) :
    s'.machine.frames.nextSerial = s.machine.frames.nextSerial ∧
      Outlast next s.machine.frames.hollow s'.machine.frames.hollow := by
  induction h with
  | refl => exact ⟨rfl, .refl _ _⟩
  | clear _ ih => exact ih
  | atRest _ ih =>
    refine ⟨ih.1, ih.2.trans (Nat.le_refl _) ?_⟩
    simp only [Session.atRest, FrameStack.hollow_truncate]
    exact .take _ _ _

theorem Begins.underway {s : Session} {unit : NodeId} (h : s.Begins job units unit) :
    Underway job units [.unit unit] s.machine := by
  cases h with
  | run h => exact .run h
  | resume h hu => exact .resume h hu

theorem Begins.begun {s : Session} {unit : NodeId} (h : s.Begins job units unit) :
    job.starts units unit := by
  cases h with
  | run h => exact .inl rfl
  | resume h hu => exact .inr hu

theorem Begins.ready (hw : job.program.WellScoped (job.starts units))
    (hj : job.program.JumpsOutward (job.starts units)) {s : Session} {unit : NodeId}
    (h : s.Begins job units unit) :
    s.job = job ∧ ∃ L, s.machine.Ready job (job.starts units) L := by
  cases h with
  | run h =>
    obtain ⟨L, hL⟩ := h.exists_recounted hw hj
    exact ⟨h.job_eq, L, (hL.ready hw hj).2⟩
  | resume h hu =>
    obtain ⟨L, hL⟩ := h.exists_recounted hw hj
    exact ⟨h.job_eq, L, (hL.ready hw hj).2.atRest hw.standard⟩

end Session

/-- One state comes after another one, in the run of one action or any number of actions later. -/
inductive Later (job : Job) (units : NodeId → Prop) (x : Agenda × Machine) :
    Agenda × Machine → Prop where
  | refl : Later job units x x
  | step {y z : Agenda × Machine} (h : Later job units x y) (hs : Does job y z) :
      Later job units x z
  | next {y : Agenda × Machine} {s s' : Session} {unit unit' : NodeId} {steps : Nat}
      (h : Later job units x y) (hb : s.Begins job units unit)
      (hr : Runs job ([.unit unit], s.machine) y) (he : (s.runUnit steps unit).1.ended)
      (hs : (s.runUnit steps unit).2.Rests s') (hb' : s'.Begins job units unit') :
      Later job units x ([.unit unit'], s'.machine)

section

variable (hw : job.program.WellScoped (job.starts units))
  (hj : job.program.JumpsOutward (job.starts units))

include hw hj

/-- Later activations do not take the places or the numbers of earlier ones. -/
theorem Later.outlast {x y : Agenda × Machine} (h : Later job units x y)
    (hx : Underway job units x.1 x.2) : Underway job units y.1 y.2 ∧
      x.2.frames.nextSerial ≤ y.2.frames.nextSerial ∧
      Outlast x.2.frames.nextSerial x.2.frames.hollow y.2.frames.hollow := by
  induction h with
  | refl => exact ⟨hx, Nat.le_refl _, .refl _ _⟩
  | step h hs ih =>
    obtain ⟨hu, hn, ho⟩ := ih
    have hc := hu.consistent.1
    exact ⟨.step hu hs, Nat.le_trans hn (hc.step hs).2.2, ho.trans hn (hc.outlast hs)⟩
  | @next y s s' unit unit' steps h hb hr he hs hb' ih =>
    obtain ⟨hu, hn, ho⟩ := ih
    obtain ⟨rfl, L, hready⟩ := hb.ready hw hj
    obtain ⟨A, m, L', hrec, hend⟩ := hready.exists_final hw hj rfl hb.begun he
    have hleaves := hready.leaves_of_ended hw hj rfl hb.begun he hrec hend
    have hfinal : Runs s.job ([.unit unit], s.machine) (A, m) :=
      hrec.lift (fun x => (x.1, x.2.1)) fun _ _ hs => hs.does
    have hy := hend.runs hr hfinal
    have hn' := (hu.consistent.1.runs hy).2.2
    obtain ⟨hrests, hrest⟩ := hs.outlast m.frames.nextSerial
    refine ⟨hb'.underway, ?_, ?_⟩
    · rw [hrests, hleaves.nextSerial]
      exact Nat.le_trans hn hn'
    · have first := ho.trans hn (hu.consistent.1.outlast_runs hy)
      exact first.trans (Nat.le_trans hn hn') (hleaves.outlast.trans (Nat.le_refl _) hrest)

/-- Of a well-scoped program whose jumps lead outward, every state of every session can be reached with
a lexicon that notes what is seen. Where a routine text is elaborated, that is the frames that its
non-locals are found in. A routine value, wherever it is held, is refused as left just when one of
these frames is closed, and never when it has no non-locals; and a handle that is stale once stays so,
whatever is opened later. -/
theorem callable_while_non_locals_live :
    (∀ A m, Underway job units A m → ∃ L, Chronicle job units A m L) ∧
    (∀ text scope params body rest m L d, Chronicle job units (.elaborate text :: rest) m L →
      job.program.tree.kind text = .routineText scope params body → job.program.NonLocal text d →
      ∃ k f, m.frames.resolve (job.program.level d) = .ok k ∧ m.frames.frames[k]? = some f ∧
        f.scope = d ∧ L.here m d = some f.serial) ∧
    (∀ A m L, Chronicle job units A m L →
      m.Holds (CallableWhile job L m) ∧ A.Holds (CallableWhile job L m)) ∧
    (∀ x y, Underway job units x.1 x.2 → Later job units x y → ∀ environ : FrameHandle,
      environ.serial < x.2.frames.nextSerial → x.2.frames.isLive environ = false →
      y.2.frames.isLive environ = false) := by
  refine ⟨fun A m h => h.exists_chronicle hw hj, ?_, fun A m L h => ?_, ?_⟩
  · intro text scope params body rest m L d h hk hd
    exact (h.recorded hw hj).sees_nonLocal hw hk hd
  · have hrec := h.recorded hw hj
    have callable (r : Procedure) (hr : m.Callable job (job.starts units) L.Knows r) :
        CallableWhile job L m r := hrec.callableWhile hw (h.grounded hw hj) hr
    exact ⟨hrec.state.values.mono callable,
      fun t ht v hv => (hrec.state.work t ht v hv).mono callable⟩
  · intro x y hx hl environ hlt hs
    exact (hl.outlast hw hj hx).2.2.stale hlt hs

end

/-- The program `((INT x; INT: x))`, called: the routine outlives the range of `x`. -/
def estranged : Job where
  program := {
    tree := {
      nodes := #[⟨.identifier ⟨1, 0⟩, .int, .dummy⟩, ⟨.routineText ⟨2⟩ 0 ⟨0⟩, ⟨7⟩, .dummy⟩,
        ⟨.serialClause ⟨1⟩ ⟨0, 1⟩, ⟨7⟩, .dummy⟩, ⟨.closed ⟨1⟩ ⟨2⟩, ⟨7⟩, .dummy⟩,
        ⟨.coercion .deprocedure ⟨3⟩, .int, .dummy⟩]
      lists := #[⟨1⟩]
      modeLists := #[]
      loops := #[]
      alternatives := #[] }
    modes := ⟨Mode.primitives.push (.proc [] .int)⟩
    scopes := ⟨#[.standard, ⟨some ⟨0⟩, 1, #[.int], false⟩, ⟨some ⟨1⟩, 2, #[], false⟩]⟩
    labels := .new
    interner := .new
    root := ⟨4⟩
    environs := #[0, 1] }
  oracle := ModeTable.oracle ⟨Mode.primitives.push (.proc [] .int)⟩
  config := .default

theorem estranged_wellScoped : estranged.program.WellScoped (estranged.starts fun _ => False) := by
  have child {inner outer : ScopeId} (hp : (estranged.program.scopes.get inner).parent = some outer)
      (hl : estranged.program.level inner = estranged.program.level outer + 1) :
      estranged.program.Child inner outer := ⟨hp, hl⟩
  have slot : estranged.program.Declares ⟨1⟩ ⟨1, 0⟩ := ⟨rfl, by decide⟩
  refine .of_places [(⟨0⟩, ⟨4⟩), (⟨0⟩, ⟨3⟩), (⟨1⟩, ⟨2⟩), (⟨1⟩, ⟨1⟩), (⟨2⟩, ⟨0⟩)] rfl
    (by decide) (by decide) (fun n hn => ?_) (by decide) ?_
  · rcases hn with rfl | hn
    · decide
    · exact hn.elim
  · simp only [List.forall_mem_cons, List.not_mem_nil, false_imp_iff, implies_true, and_true]
    refine ⟨trivial, ⟨child rfl rfl, fun range items h => ?_⟩, trivial, child rfl rfl,
      ⟨1⟩, .single (child rfl rfl), slot⟩
    cases h
    rfl

theorem estranged_jumpsOutward :
    estranged.program.JumpsOutward (estranged.starts fun _ => False) := by
  intro s n l h hk
  have places : (s, n) ∈ [((⟨0⟩ : ScopeId), (⟨4⟩ : NodeId)), (⟨0⟩, ⟨3⟩), (⟨1⟩, ⟨2⟩), (⟨1⟩, ⟨1⟩),
      (⟨2⟩, ⟨0⟩)] := by
    refine h.mem (fun n hn => ?_) (by decide)
    rcases hn with rfl | hn
    · decide
    · exact hn.elim
  simp only [List.mem_cons, Prod.mk.injEq, List.not_mem_nil, or_false] at places
  rcases places with ⟨-, rfl⟩ | ⟨-, rfl⟩ | ⟨-, rfl⟩ | ⟨-, rfl⟩ | ⟨-, rfl⟩ <;> cases hk

/-- The call in `estranged` is refused, since the range of `x` was left. -/
theorem estranged_refused : ∃ rest m L V d,
    Chronicle estranged (fun _ => False) (.coerce .deprocedure ⟨4⟩ ⟨3⟩ 0 :: rest) m L ∧
    m.stack = #[.procedure (.routine ⟨1⟩ ⟨1, 1⟩)] ∧ L.held ⟨1⟩ ⟨1, 1⟩ V ∧
    estranged.program.NonLocal ⟨1⟩ d ∧ V.Lost m.frames d := by
  obtain ⟨rest, m, hd, hstack, hcall⟩ : ∃ rest m,
      drive estranged 11 [.unit estranged.program.root] (Session.new estranged none false).machine =
        .unfinished (.coerce .deprocedure ⟨4⟩ ⟨3⟩ 0 :: rest) m ∧
      m.stack = #[.procedure (.routine ⟨1⟩ ⟨1, 1⟩)] ∧
      Exec.callRoutine estranged ⟨1⟩ ⟨1, 1⟩ [] ⟨4⟩ m = .error (.fault (.of .scopeViolation)) m :=
    ⟨_, _, rfl, rfl, rfl⟩
  have hu : Underway estranged (fun _ => False) (.coerce .deprocedure ⟨4⟩ ⟨3⟩ 0 :: rest) m :=
    .runs (.run (.new none false)) (runs_of_unfinished hd)
  obtain ⟨recounted, -, callable, -⟩ :=
    callable_while_non_locals_live estranged_wellScoped estranged_jumpsOutward
  obtain ⟨L, hL⟩ := recounted _ _ hu
  have held := (callable _ _ _ hL).1.stack (.procedure (.routine ⟨1⟩ ⟨1, 1⟩)) (by simp [hstack])
  obtain ⟨-, ⟨V, hV⟩, hwhile⟩ := Value.within_procedure.mp held
  obtain ⟨d, hd, hlost⟩ := ((hwhile V hV).2 [] ⟨4⟩).1.mp hcall
  exact ⟨rest, m, L, V, d, hL, hstack, hV, hd, hlost⟩

end Algol68
