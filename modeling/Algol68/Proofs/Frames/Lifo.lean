import Algol68.Proofs.Jump.Landing
import Algol68.Proofs.Scope.Liveness

/-! Frames are opened and closed in the order of a stack. Whatever a unit does and however it ends, the
frames that were there when it began are there when it is left, and the walks along static links, which
have no bound of their own, come to an end among the frames. -/

namespace Algol68

open Outline (Along Admits)

variable {job : Job} {units : NodeId → Prop}

/-- Two records of one activation. They differ at most in the values of the locals and in what can be
resumed in the frame. -/
structure Frame.Same (f g : Frame) : Prop where
  scope : f.scope = g.scope
  level : f.level = g.level
  staticLink : f.staticLink = g.staticLink
  serial : f.serial = g.serial
  locals : f.locals.size = g.locals.size

namespace Frame.Same

variable {f g h : Frame}

theorem refl (f : Frame) : f.Same f := ⟨rfl, rfl, rfl, rfl, rfl⟩

theorem symm (hs : f.Same g) : g.Same f :=
  ⟨hs.scope.symm, hs.level.symm, hs.staticLink.symm, hs.serial.symm, hs.locals.symm⟩

theorem trans (hfg : f.Same g) (hgh : g.Same h) : f.Same h :=
  ⟨hfg.scope.trans hgh.scope, hfg.level.trans hgh.level, hfg.staticLink.trans hgh.staticLink,
    hfg.serial.trans hgh.serial, hfg.locals.trans hgh.locals⟩

theorem of_hollow (hs : f.hollow.Same g.hollow) : f.Same g :=
  ⟨hs.scope, hs.level, hs.staticLink, hs.serial, by simpa [Frame.hollow] using hs.locals⟩

end Frame.Same

/-! Frames below a depth. -/

/-- The frames at the places below `n` are the same activations. -/
def SameFrames (n : Nat) (fs gs : List Frame) : Prop :=
  ∀ i < n, ∃ f g, fs[i]? = some f ∧ gs[i]? = some g ∧ f.Same g

namespace SameFrames

variable {n k : Nat} {fs gs hs : List Frame}

theorem refl (fs : List Frame) : SameFrames fs.length fs fs := by
  intro i hi
  exact ⟨fs[i], fs[i], List.getElem?_eq_getElem hi, List.getElem?_eq_getElem hi, .refl _⟩

theorem symm (h : SameFrames n fs gs) : SameFrames n gs fs := by
  intro i hi
  obtain ⟨f, g, hf, hg, hs⟩ := h i hi
  exact ⟨g, f, hg, hf, hs.symm⟩

theorem trans (h : SameFrames n fs gs) (h' : SameFrames n gs hs) : SameFrames n fs hs := by
  intro i hi
  obtain ⟨f, g, hf, hg, hfg⟩ := h i hi
  obtain ⟨g', x, hg', hx, hgx⟩ := h' i hi
  cases hg.symm.trans hg'
  exact ⟨f, x, hf, hx, hfg.trans hgx⟩

theorem of_le (h : SameFrames n fs gs) (hk : k ≤ n) : SameFrames k fs gs :=
  fun i hi => h i (Nat.lt_of_lt_of_le hi hk)

theorem le_length (h : SameFrames n fs gs) : n ≤ fs.length := by
  by_contra hlt
  obtain ⟨f, g, hf, -, -⟩ := h fs.length (by omega)
  simp at hf

theorem take (n : Nat) (fs : List Frame) : SameFrames (fs.take n).length fs (fs.take n) := by
  intro i hi
  have hlen : i < n ∧ i < fs.length := by simpa using hi
  have hf : fs[i]? = some fs[i] := List.getElem?_eq_getElem hlen.2
  exact ⟨fs[i], fs[i], hf, by rw [List.getElem?_take_of_lt hlen.1, hf], .refl _⟩

theorem modify (fs : List Frame) (k : Nat) {a : Frame → Frame} (ha : ∀ f : Frame, f.Same (a f)) :
    SameFrames fs.length fs (fs.modify k a) := by
  intro i hi
  refine ⟨fs[i], if k = i then a fs[i] else fs[i], List.getElem?_eq_getElem hi, ?_, ?_⟩
  · simp only [List.getElem?_modify, List.getElem?_eq_getElem hi]
    split <;> rfl
  · split
    · exact ha _
    · exact .refl _

end SameFrames

namespace Outline

/-- The frames that a task will leave are among those that are there. -/
theorem same_pass (o : Outline) (t : Task) :
    SameFrames (o.pass t).frames.length o.frames (o.pass t).frames := by
  cases t with
  | leave depth => exact .take _ _
  | labelled c =>
    have h := SameFrames.modify o.frames c.frame (a := Frame.vacate) fun f => ⟨rfl, rfl, rfl, rfl, rfl⟩
    simpa only [pass, List.length_modify] using h
  | _ => exact .refl _

theorem same_passAll (o : Outline) (A : Agenda) :
    SameFrames (o.passAll A).frames.length o.frames (o.passAll A).frames := by
  induction A generalizing o with
  | nil => exact .refl _
  | cons t A ih =>
    have hrest := ih (o.pass t)
    exact ((o.same_pass t).of_le hrest.le_length).trans hrest

theorem Stale.same {o u : Outline} (h : o.Stale u) :
    u.frames.length = o.frames.length ∧ SameFrames o.frames.length o.frames u.frames := by
  rcases h with rfl | ⟨-, r, rfl⟩
  · exact ⟨rfl, .refl _⟩
  · exact ⟨List.length_modify .., .modify _ _ fun f => ⟨rfl, rfl, rfl, rfl, rfl⟩⟩

end Outline

/-- The frames of one stack are at the same places in another one. -/
def FrameStack.KeptIn (s s' : FrameStack) : Prop :=
  ∀ i < s.depth, ∃ f g, s.frames[i]? = some f ∧ s'.frames[i]? = some g ∧ f.Same g

theorem FrameStack.KeptIn.of_hollow {s s' : FrameStack}
    (h : SameFrames s.depth s.hollow s'.hollow) : s.KeptIn s' := by
  intro i hi
  obtain ⟨f, g, hf, hg, hs⟩ := h i hi
  rw [hollow_getElem?] at hf hg
  obtain ⟨x, hx, rfl⟩ := Option.map_eq_some_iff.mp hf
  obtain ⟨y, hy, rfl⟩ := Option.map_eq_some_iff.mp hg
  exact ⟨x, y, hx, hy, .of_hollow hs⟩

/-- A stack has no frames but those of another one. -/
structure FrameStack.Restores (s s' : FrameStack) : Prop where
  depth : s'.depth = s.depth
  kept : s.KeptIn s'

namespace Consistent

variable {A A' : Agenda} {m m' : Machine}

/-- While a unit is evaluated, the frames it was begun in stay. -/
theorem keptIn_of_runs {n : NodeId} (h : Consistent job [.unit n] m)
    (hr : Runs job ([.unit n], m) (A, m')) : m.frames.KeptIn m'.frames := by
  obtain ⟨-, hp, -⟩ := h.runs hr
  have hp : m'.outline.passAll A = m.outline := hp
  have same := m'.outline.same_passAll A
  rw [hp] at same
  have hlen : m.outline.frames.length = m.frames.depth := FrameStack.hollow_length _
  rw [hlen] at same
  exact .of_hollow same.symm

theorem restores_of_runs {n : NodeId} (h : Consistent job [.unit n] m)
    (hr : Runs job ([.unit n], m) ([], m')) : m.frames.Restores m'.frames := by
  obtain ⟨-, hp, -⟩ := h.runs hr
  have hp : m'.outline = m.outline := hp
  have hlen := congrArg (fun o => o.frames.length) hp
  exact ⟨by simpa [Machine.outline] using hlen, h.keptIn_of_runs hr⟩

theorem restores_of_escapes {n : NodeId} {s : Signal} (h : Consistent job [.unit n] m)
    (he : Escapes job ([.unit n], m) s m') : m.frames.Restores m'.frames := by
  obtain ⟨hstale, -, -⟩ := h.escapes he
  obtain ⟨hlen, same⟩ := hstale.same
  have hlen' : m'.frames.hollow.length = m.frames.hollow.length := hlen
  have same' : SameFrames m.frames.hollow.length m.frames.hollow m'.frames.hollow := same
  simp only [FrameStack.hollow_length] at hlen' same'
  exact ⟨hlen', .of_hollow same'⟩

end Consistent

/-! The order of the frames. -/

/-- The frame of the standard environ is at the bottom; every other frame is linked to one further down
and was opened after all those below it. -/
structure FrameStack.Ordered (s : FrameStack) : Prop where
  standard : ∃ f, s.frames[0]? = some f ∧ f.scope = .standard ∧ f.level = 0 ∧ f.staticLink = none ∧
    f.serial = 0
  linked : ∀ (i : Nat) (f : Frame), 0 < i → s.frames[i]? = some f → ∃ l < i, f.staticLink = some l
  ascending : ∀ (i j : Nat) (f g : Frame), i < j → s.frames[i]? = some f → s.frames[j]? = some g →
    f.serial < g.serial
  given : ∀ f ∈ s.frames, f.serial < s.nextSerial

theorem Machine.outline_frame {m : Machine} {i : Nat} {f : Frame}
    (hf : m.frames.frames[i]? = some f) : m.outline.frames[i]? = some f.hollow := by
  change m.frames.hollow[i]? = _
  rw [FrameStack.hollow_getElem?, hf]
  rfl

theorem Outline.Sound.frames_ordered {m : Machine} (h : m.outline.Sound job m.frames.nextSerial) :
    m.frames.Ordered := by
  constructor
  · obtain ⟨f, hf, hscope, hlevel, hlink, hserial, -⟩ := h.base
    have hf : m.frames.hollow[0]? = some f := hf
    rw [FrameStack.hollow_getElem?] at hf
    obtain ⟨x, hx, rfl⟩ := Option.map_eq_some_iff.mp hf
    exact ⟨x, hx, hscope, hlevel, hlink, hserial⟩
  · intro i f hi hf
    obtain ⟨i, rfl⟩ : ∃ k, i = k + 1 := ⟨i - 1, by omega⟩
    obtain ⟨⟨l, hl, hlink⟩, -⟩ := h.linked i _ (Machine.outline_frame hf)
    exact ⟨l, by omega, hlink⟩
  · intro i j f g hij hf hg
    exact h.ordered i j f.hollow g.hollow hij (Machine.outline_frame hf)
      (Machine.outline_frame hg)
  · intro f hf
    obtain ⟨i, hi⟩ := Array.mem_iff_getElem?.mp hf
    exact h.given i f.hollow (Machine.outline_frame hi)

namespace FrameStack

variable {s : FrameStack}

/-- The search for the frame at a level, link by link. It is begun at a frame and goes on as long as it
has not ended, and each frame it looks at is there. -/
inductive Resolves (s : FrameStack) (level : Nat) : Nat → Checked Nat → Prop where
  | here {i : Nat} {f : Frame} (hf : s.frames[i]? = some f) (hl : f.level = level) :
      Resolves s level i (.ok i)
  | up {i link : Nat} {f : Frame} {r : Checked Nat} (hf : s.frames[i]? = some f)
      (hl : level < f.level) (hk : f.staticLink = some link) (h : Resolves s level link r) :
      Resolves s level i r
  | unlinked {i : Nat} {f : Frame} (hf : s.frames[i]? = some f) (hl : f.level ≠ level)
      (hk : f.staticLink = none) : Resolves s level i (fault (.missingFrame level))
  | outside {i : Nat} {f : Frame} (hf : s.frames[i]? = some f) (hl : f.level < level) :
      Resolves s level i (fault (.missingFrame level))

/-- The search for an activation of a range, likewise. -/
inductive Searches (s : FrameStack) (scope : ScopeId) : Nat → Option Nat → Prop where
  | here {i : Nat} {f : Frame} (hf : s.frames[i]? = some f) (hs : f.scope = scope) :
      Searches s scope i (some i)
  | up {i link : Nat} {f : Frame} {r : Option Nat} (hf : s.frames[i]? = some f)
      (hs : f.scope ≠ scope) (hk : f.staticLink = some link) (h : Searches s scope link r) :
      Searches s scope i r
  | unlinked {i : Nat} {f : Frame} (hf : s.frames[i]? = some f) (hs : f.scope ≠ scope)
      (hk : f.staticLink = none) : Searches s scope i none

namespace Ordered

theorem depth_pos (h : s.Ordered) : 0 < s.depth := by
  obtain ⟨f, hf, -⟩ := h.standard
  exact (Array.getElem?_eq_some_iff.mp hf).1

theorem lt_of_link (h : s.Ordered) {i l : Nat} {f : Frame} (hf : s.frames[i]? = some f)
    (hl : f.staticLink = some l) : l < i := by
  rcases Nat.eq_zero_or_pos i with rfl | hi
  · obtain ⟨g, hg, -, -, hnone, -⟩ := h.standard
    cases hf.symm.trans hg
    cases hl.symm.trans hnone
  · obtain ⟨l', hl', hlink⟩ := h.linked i f hi hf
    cases hl.symm.trans hlink
    exact hl'

theorem resolvesFrom (h : s.Ordered) (level : Nat) {links i : Nat} (hi : i < s.depth)
    (hlinks : i < links) : s.Resolves level i (s.resolveFrom level links i) := by
  induction links generalizing i with
  | zero => omega
  | succ links ih =>
    have hf : s.frames[i]? = some s.frames[i] := Array.getElem?_eq_getElem hi
    simp only [resolveFrom, hf]
    split
    · next hl => exact .here hf hl
    · next hl =>
      split
      · next link hk =>
        have hlt := h.lt_of_link hf hk
        split
        · next hlevel => exact .up hf hlevel hk (ih (by omega) (by omega))
        · exact .outside hf (by omega)
      · next hk => exact .unlinked hf hl hk

theorem top_eq (h : s.Ordered) : s.top = .ok (s.depth - 1) := by
  have hpos := h.depth_pos
  have hne : s.frames.isEmpty = false := by
    simpa [depth, Array.size_pos_iff] using hpos
  simp [top, depth, hne]

theorem resolves (h : s.Ordered) (level : Nat) :
    s.Resolves level (s.depth - 1) (s.resolve level) := by
  have hpos := h.depth_pos
  have hlt : s.depth - 1 < s.frames.size := Nat.sub_one_lt_of_lt hpos
  rw [resolve, h.top_eq]
  exact h.resolvesFrom level hlt hlt

theorem searchesFrom (h : s.Ordered) (scope : ScopeId) {links i : Nat} (hi : i < s.depth)
    (hlinks : i < links) : ∃ found, s.Searches scope i found ∧
      s.findScopeFrom scope links i = found.bind (s.frames[·]?) := by
  induction links generalizing i with
  | zero => omega
  | succ links ih =>
    have hf : s.frames[i]? = some s.frames[i] := Array.getElem?_eq_getElem hi
    by_cases hs : s.frames[i].scope = scope
    · exact ⟨some i, .here hf hs, by simp [findScopeFrom, hf, hs]⟩
    · cases hk : s.frames[i].staticLink with
      | none => exact ⟨none, .unlinked hf hs hk, by simp [findScopeFrom, hf, hs, hk]⟩
      | some link =>
        have hlt := h.lt_of_link hf hk
        obtain ⟨found, hfound, heq⟩ := ih (i := link) (by omega) (by omega)
        exact ⟨found, .up hf hs hk hfound, by simp [findScopeFrom, hf, hs, hk, heq]⟩

theorem searches (h : s.Ordered) (scope : ScopeId) :
    ∃ found, s.Searches scope (s.depth - 1) found ∧
      s.findScope scope = found.bind (s.frames[·]?) := by
  have hpos := h.depth_pos
  have hlt : s.depth - 1 < s.frames.size := Nat.sub_one_lt_of_lt hpos
  exact h.searchesFrom scope hlt hlt

end Ordered

end FrameStack

/-! Serial numbers. -/

theorem Session.Begins.job_eq {s : Session} {unit : NodeId} (h : s.Begins job units unit) :
    s.job = job := by
  cases h with
  | run h => exact h.job_eq
  | resume h hu => exact h.job_eq

theorem Session.Rests.nextSerial {s s' : Session} (h : s.Rests s') :
    s'.machine.frames.nextSerial = s.machine.frames.nextSerial := by
  induction h with
  | refl => rfl
  | clear _ ih => exact ih
  | atRest _ ih => exact ih

/-- No serial number is taken back while a run goes on to its end. -/
theorem Consistent.nextSerial_le_of_ends {A A' : Agenda} {m m' m₁ : Machine}
    (h : Consistent job A m) (hr : Runs job (A, m) (A', m')) (he : Ends job (A, m) m₁) :
    m'.frames.nextSerial ≤ m₁.frames.nextSerial := by
  have hc := (h.runs hr).1
  rcases he.of_runs hr with hdone | ⟨s, hs⟩
  · exact (hc.runs hdone).2.2
  · exact (hc.escapes hs).2.1

theorem Session.Begins.idle {s : Session} {unit : NodeId} (h : s.Begins job units unit) :
    s.machine.Idle job := by
  cases h with
  | run h => exact h.idle
  | resume h hu => exact atRest_idle h.idle

/-- The frame of the standard environ is the same one wherever nothing else is open. -/
theorem Outlast.of_idle {next next' : Nat} {o : Outline} {m : Machine}
    (h : o.Sound job next) (hm : m.Idle job) : Outlast next' o.frames m.frames.hollow := by
  intro i f hf _ k hk
  obtain ⟨a, ha, hscope, -, hlink, hserial, -⟩ := h.base
  obtain ⟨b, hb, hscope', -, hlink', hserial', -⟩ := hm.sound.base
  have hb : m.frames.hollow[0]? = some b := hb
  have hi := (List.getElem?_eq_some_iff.mp hf).1
  rw [FrameStack.hollow_length, hm.depth] at hi
  obtain rfl : k = 0 := by omega
  simp [ha, hb, Frame.key, hscope, hlink, hserial, hscope', hlink', hserial']

/-- Later activations do not take the places or the numbers of earlier ones, in any program. -/
theorem Later.outlast_any {x y : Agenda × Machine} (h : Later job units x y)
    (hx : Underway job units x.1 x.2) : Underway job units y.1 y.2 ∧
      x.2.frames.nextSerial ≤ y.2.frames.nextSerial ∧
      Outlast x.2.frames.nextSerial x.2.frames.hollow y.2.frames.hollow := by
  induction h with
  | refl => exact ⟨hx, Nat.le_refl _, .refl _ _⟩
  | step h hs ih =>
    obtain ⟨hu, hn, ho⟩ := ih
    have hc := hu.consistent.1
    exact ⟨.step hu hs, Nat.le_trans hn (hc.step hs).2.2, ho.trans hn (hc.outlast hs)⟩
  | @next y s s' unit unit' steps h hb hr he hs hb' ih =>
    obtain ⟨hu, hn, -⟩ := ih
    obtain rfl := hb.job_eq
    obtain ⟨m, hm, hl⟩ := Session.runUnit_leaves he
    have hle := (hb.underway.consistent.1).nextSerial_le_of_ends hr hm
    have hleft : (s.runUnit steps unit).2.machine.frames.nextSerial = m.frames.nextSerial := by
      generalize (s.runUnit steps unit).2.machine = m' at hl ⊢
      cases hl <;> rfl
    refine ⟨hb'.underway, ?_, .of_idle hx.consistent.1.sound hb'.idle⟩
    rw [hs.nextSerial, hleft]
    exact Nat.le_trans hn hle

/-- The activation with a serial number that was given out is the one it was given to, at its place. -/
theorem Later.same_of_serial_lt {x y : Agenda × Machine} (h : Later job units x y)
    (hx : Underway job units x.1 x.2) {i : Nat} {g : Frame} (hg : y.2.frames.frames[i]? = some g)
    (hlt : g.serial < x.2.frames.nextSerial) :
    ∃ f, x.2.frames.frames[i]? = some f ∧ f.Same g := by
  obtain ⟨hy, -, ho⟩ := h.outlast_any hx
  have hsx := hx.consistent.1.sound
  have hsy := hy.consistent.1.sound
  have hg' := Machine.outline_frame hg
  obtain ⟨f', hf', hkey⟩ := (ho i g.hollow hg' hlt).symm.exists_key (Nat.lt_succ_self i) hg'
  rw [FrameStack.hollow_getElem?] at hf'
  obtain ⟨f, hf, rfl⟩ := Option.map_eq_some_iff.mp hf'
  have hf' := Machine.outline_frame hf
  simp only [Frame.key, Prod.mk.injEq] at hkey
  obtain ⟨hscope, hlink, hserial⟩ := hkey
  -- the level and the number of locals of an activation are those of its range
  have hlevel : f.hollow.level = g.hollow.level := by
    cases i with
    | zero =>
      obtain ⟨a, ha, -, hla, -⟩ := hsx.base
      obtain ⟨b, hb, -, hlb, -⟩ := hsy.base
      cases hf'.symm.trans ha
      cases hg'.symm.trans hb
      rw [hla, hlb]
    | succ i => rw [(hsx.linked i _ hf').2, (hsy.linked i _ hg').2, hscope]
  have hsize : f.hollow.locals.size = g.hollow.locals.size := by
    rw [hsx.sized i _ hf', hsy.sized i _ hg', hscope]
  exact ⟨f, hf, .of_hollow ⟨hscope, hlevel, hlink, hserial, hsize⟩⟩

/-- In every state of every session, of any program: the frames are ordered; a search along the static
links ends, at a frame or with a fault, and looks only at frames that are there; a unit that is evaluated,
however it ends, restores the frames it was begun in, and closes none of them in between; and no serial
number that was given out is given to another activation later. -/
theorem frames_lifo {A : Agenda} {m : Machine} (h : Underway job units A m) :
    m.frames.Ordered ∧
    (∀ level, m.frames.Resolves level (m.frames.depth - 1) (m.frames.resolve level)) ∧
    (∀ scope, ∃ found, m.frames.Searches scope (m.frames.depth - 1) found ∧
      m.frames.findScope scope = found.bind (m.frames.frames[·]?)) ∧
    (∀ n rest steps, A = .unit n :: rest →
      match drive job steps [.unit n] m with
      | .completed m' => m.frames.Restores m'.frames
      | .escaped _ m' => m.frames.Restores m'.frames
      | .unfinished _ m' => m.frames.KeptIn m'.frames) ∧
    (∀ y, Later job units (A, m) y → m.frames.nextSerial ≤ y.2.frames.nextSerial ∧
      ∀ (i : Nat) (g : Frame), y.2.frames.frames[i]? = some g →
        g.serial < m.frames.nextSerial → ∃ f, m.frames.frames[i]? = some f ∧ f.Same g) := by
  have hc := h.consistent.1
  have ordered := hc.sound.frames_ordered
  refine ⟨ordered, ordered.resolves, ordered.searches, ?_, ?_⟩
  · rintro n rest steps rfl
    have hunit : Consistent job [.unit n] m := Consistent.of_append (B := rest) hc
    have hd := @drive_spec job steps [.unit n] m
    split
    · next hx =>
      rw [hx] at hd
      exact hunit.restores_of_runs hd
    · next hx =>
      rw [hx] at hd
      exact hunit.restores_of_escapes hd
    · next hx =>
      rw [hx] at hd
      exact hunit.keptIn_of_runs hd
  · intro y hy
    exact ⟨(hy.outlast_any h).2.1, fun i g hg hlt => hy.same_of_serial_lt h hg hlt⟩

/-- The jump of `leap` leaves its unit with the two frames that the unit was begun in. -/
theorem leap_restores : ∃ rest m s m', Underway leap (fun _ => False) (.unit ⟨0⟩ :: rest) m ∧
    drive leap 2 [.unit ⟨0⟩] m = .escaped s m' ∧ m.frames.depth = 2 ∧
    m.frames.Restores m'.frames := by
  obtain ⟨rest, m, hd, hdepth, s, m', he⟩ : ∃ rest m,
      drive leap 3 [.unit leap.program.root] (Session.new leap none false).machine =
        .unfinished (.unit ⟨0⟩ :: rest) m ∧ m.frames.depth = 2 ∧
      ∃ s m', drive leap 2 [.unit ⟨0⟩] m = .escaped s m' :=
    ⟨_, _, rfl, rfl, _, _, rfl⟩
  have hu : Underway leap (fun _ => False) (.unit ⟨0⟩ :: rest) m :=
    .runs (.run (.new none false)) (runs_of_unfinished hd)
  have restores := (frames_lifo hu).2.2.2.1 ⟨0⟩ rest 2 rfl
  rw [he] at restores
  exact ⟨rest, m, s, m', hu, he, hdepth, restores⟩

end Algol68
