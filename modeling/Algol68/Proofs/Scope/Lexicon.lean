import Algol68.Proofs.Scope.Routine

/-! What lexical scoping designates. A lexicon notes which activation of each range a place sees: from
inside of a new activation the same as from where its range is entered, and for a routine the same as
from where its value was elaborated, wherever it is called. Nothing in a run looks at the lexicon. -/

namespace Algol68

open Outline

/-- The serial number of the activation that is seen of each range around a place. -/
abbrev View := ScopeId → Option Nat

/-- The view from inside of a new activation of a range. -/
def View.inside (V : View) (scope : ScopeId) (serial : Nat) : View :=
  fun d => if d = scope then some serial else V d

structure Lexicon where
  /-- What each activation sees, itself among it. -/
  seen : Nat → View
  /-- What was seen where a routine value was elaborated. -/
  held : NodeId → FrameHandle → View → Prop

namespace Lexicon

/-- Before anything was run the standard environ sees itself. -/
def standard : Lexicon where
  seen _ := View.inside (fun _ => none) .standard 0
  held _ _ _ := False

/-- An activation is opened that sees what the view says. -/
def opened (L : Lexicon) (serial : Nat) (V : View) : Lexicon where
  seen k := if k = serial then V else L.seen k
  held := L.held

/-- A routine value is elaborated where the view is what is seen. -/
def elaborated (L : Lexicon) (text : NodeId) (environ : FrameHandle) (V : View) : Lexicon where
  seen := L.seen
  held r e W := L.held r e W ∨ r = text ∧ e = environ ∧ W = V

/-- Whether a value was elaborated from a routine text with that environ. -/
def Knows (L : Lexicon) (text : NodeId) (environ : FrameHandle) : Prop :=
  ∃ V, L.held text environ V

/-- What is seen from the innermost activation of a machine. -/
def here (L : Lexicon) (m : Machine) : View :=
  L.seen ((m.outline.frames[m.outline.top]?).elim 0 Frame.serial)

/-- How a task that completes is noted. -/
inductive Notes (job : Job) (L : Lexicon) (m m' : Machine) : Task → Lexicon → Prop where
  /-- A range is entered. -/
  | entered {t : Task} (ht : ∀ scope environ args body, t ≠ .enterRoutine scope environ args body)
      {f : Frame} (hf : m'.frames.hollow = m.frames.hollow ++ [f]) :
      Notes job L m m' t (L.opened f.serial ((L.here m).inside f.scope f.serial))
  /-- A routine is entered. -/
  | called {scope : ScopeId} {link : Nat} {args : List Value} {body text : NodeId}
      {environ : FrameHandle} {V : View} (hr : ∃ a ∈ m.calls.head?, a.routine = some text)
      (he : m.frames.handle link = .ok environ) (hV : L.held text environ V)
      {f : Frame} (hf : m'.frames.hollow = m.frames.hollow ++ [f]) :
      Notes job L m m' (.enterRoutine scope link args body)
        (L.opened f.serial (V.inside f.scope f.serial))
  /-- A routine text is elaborated. -/
  | elaborated {text : NodeId} {scope : ScopeId} {params : Nat} {body : NodeId}
      {environ : FrameHandle} (hk : job.program.tree.kind text = .routineText scope params body)
      (he : (do m.frames.handle (← m.frames.resolve (job.program.environLevel text))) =
        .ok environ) :
      Notes job L m m' (.elaborate text) (L.elaborated text environ (L.here m))
  /-- Anything else. -/
  | other {t : Task} (hn : m'.frames.nextSerial = m.frames.nextSerial)
      (ht : ∀ text scope params body, t = .elaborate text →
        job.program.tree.kind text ≠ .routineText scope params body) :
      Notes job L m m' t L

variable {job : Job} {L L' : Lexicon} {m m' : Machine} {t : Task}

theorem Notes.knows (h : Notes job L m m' t L') (text : NodeId) (environ : FrameHandle)
    (hK : L.Knows text environ) : L'.Knows text environ := by
  cases h with
  | entered | called | other => exact hK
  | elaborated =>
    obtain ⟨V, hV⟩ := hK
    exact ⟨V, .inl hV⟩

end Lexicon

/-! A view agrees with the frames that static links lead to. -/

/-- The frames that a place leads to are the activations of a view. -/
def Agrees (fs : List Frame) (i : Nat) (V : View) : Prop :=
  ∀ k g, Leads fs i k → fs[k]? = some g → V g.scope = some g.serial

namespace Agrees

variable {p : Program} {fs gs : List Frame} {i k : Nat} {V : View}

theorem of_leads (h : Agrees fs i V) (hl : Leads fs i k) : Agrees fs k V :=
  fun _ g hk hg => h _ g (hl.trans hk) hg

theorem of_same (h : Agrees fs i V) (hn : Nested p gs) (hs : SameBelow (i + 1) fs gs) :
    Agrees gs i V := by
  intro k g hl hg
  have hk := hn.le_of_leads hl
  obtain ⟨f, hf, hkey⟩ := hs.symm.exists_key (by omega) hg
  simp only [Frame.key, Prod.mk.injEq] at hkey
  rw [← hkey.1, ← hkey.2.2]
  exact h k f (hs.symm.leads hn (Nat.lt_succ_self i) hl) hf

/-- What is seen from inside of a new activation agrees with its static link. -/
theorem push {f : Frame} {link : Nat} (h : Agrees fs link V) (hn : Nested p (fs ++ [f]))
    (hl : f.staticLink = some link) (hlt : link < fs.length) :
    Agrees (fs ++ [f]) fs.length (V.inside f.scope f.serial) := by
  intro k g hk hg
  have hf : (fs ++ [f])[fs.length]? = some f := by simp
  rcases Relation.ReflTransGen.cases_head hk with rfl | ⟨j, ⟨x, hx, hxl⟩, hk'⟩
  · cases hf.symm.trans hg
    exact if_pos rfl
  · cases hf.symm.trans hx
    cases hl.symm.trans hxl
    have outside : g.scope ≠ f.scope := by
      intro heq
      have hne : fs.length ≠ k := by
        have := hn.le_of_leads hk'
        omega
      have := hn.level_lt hf hk hg hne
      rw [heq] at this
      exact Nat.lt_irrefl _ this
    rw [View.inside, if_neg outside]
    have below : SameBelow (link + 1) fs (fs ++ [f]) :=
      fun i hi => SameBelow.append fs [f] i (by omega)
    exact h.of_same hn below k g hk' hg

end Agrees

/-- The frames of a machine are the activations that a lexicon designates. -/
structure Lexicon.Fits (L : Lexicon) (m : Machine) : Prop where
  seen : ∀ (i : Nat) (f : Frame), m.frames.hollow[i]? = some f →
    Agrees m.frames.hollow i (L.seen f.serial)
  held : ∀ text environ V, L.held text environ V → environ.serial < m.frames.nextSerial ∧
    ∀ f, m.frames.hollow[environ.index]? = some f → f.serial = environ.serial →
      Agrees m.frames.hollow environ.index V

namespace Lexicon.Fits

variable {job : Job} {starts : NodeId → Prop} {L L' : Lexicon} {m m' : Machine} {t : Task}
  {A rest : Agenda} {p : Program}

/-- What is seen from the innermost activation agrees with its frame. -/
theorem here (h : L.Fits m) {f : Frame} (hf : m.outline.frames[m.outline.top]? = some f) :
    Agrees m.frames.hollow m.outline.top (L.here m) := by
  rw [Lexicon.here, hf]
  exact h.seen _ f hf

/-- Where no activation was opened, the frames that are left are still those designated. -/
theorem outlast (h : L.Fits m) (hn : Nested p m'.frames.hollow)
    (hnext : m.frames.nextSerial ≤ m'.frames.nextSerial)
    (hgiven : ∀ (i : Nat) (f : Frame), m'.frames.hollow[i]? = some f → f.serial < m.frames.nextSerial)
    (ho : Outlast m.frames.nextSerial m.frames.hollow m'.frames.hollow) : L.Fits m' := by
  refine ⟨fun i f hf => ?_, fun text environ V hV => ?_⟩
  · have same := ho i f hf (hgiven i f hf)
    obtain ⟨g, hg, hkey⟩ := same.symm.exists_key (Nat.lt_succ_self i) hf
    simp only [Frame.key, Prod.mk.injEq] at hkey
    rw [← hkey.2.2]
    exact (h.seen i g hg).of_same hn same
  · obtain ⟨hlt, hagree⟩ := h.held text environ V hV
    refine ⟨Nat.lt_of_lt_of_le hlt hnext, fun f hf hs => ?_⟩
    have same := ho _ f hf (hgiven _ f hf)
    obtain ⟨g, hg, hkey⟩ := same.symm.exists_key (Nat.lt_succ_self _) hf
    simp only [Frame.key, Prod.mk.injEq] at hkey
    exact (hagree g hg (hkey.2.2.trans hs)).of_same hn same

/-- A new activation that sees what agrees with its static link. -/
theorem opened (h : L.Fits m) (hs : m.outline.Sound job m.frames.nextSerial)
    (hn : Nested p m'.frames.hollow) {f : Frame} {link : Nat} {V : View}
    (hf : m'.frames.hollow = m.frames.hollow ++ [f]) (hl : f.staticLink = some link)
    (hlt : link < m.frames.hollow.length) (hserial : f.serial = m.frames.nextSerial)
    (hnext : m'.frames.nextSerial = m.frames.nextSerial + 1)
    (hV : Agrees m.frames.hollow link V) :
    (L.opened f.serial (V.inside f.scope f.serial)).Fits m' := by
  rw [hf] at hn
  refine ⟨fun i g hg => ?_, fun text environ W hW => ?_⟩
  · rw [hf] at hg ⊢
    by_cases hi : i < m.frames.hollow.length
    · rw [List.getElem?_append_left hi] at hg
      have : g.serial ≠ f.serial := by
        have := hs.given i g hg
        omega
      rw [show (L.opened f.serial _).seen g.serial = L.seen g.serial from if_neg this]
      exact (h.seen i g hg).of_same hn fun k hk => SameBelow.append _ [f] k (by omega)
    · have hlen := (List.getElem?_eq_some_iff.mp hg).1
      simp only [List.length_append, List.length_singleton] at hlen
      have hi : i = m.frames.hollow.length := by omega
      subst hi
      rw [List.getElem?_concat_length] at hg
      cases hg
      rw [show (L.opened f.serial _).seen f.serial = V.inside f.scope f.serial from if_pos rfl]
      exact hV.push hn hl hlt
  · obtain ⟨hlt', hagree⟩ := h.held text environ W hW
    refine ⟨by omega, fun g hg hserial' => ?_⟩
    rw [hf] at hg ⊢
    rw [List.getElem?_append] at hg
    split at hg
    · next hi =>
      exact (hagree g hg hserial').of_same hn fun k hk => SameBelow.append _ [f] k (by omega)
    · have := List.mem_singleton.mp (List.mem_of_getElem? hg)
      subst this
      omega

/-- A routine value sees what is seen where it is elaborated. -/
theorem elaborated (h : L.Fits m) (hs : m.outline.Sound job m.frames.nextSerial)
    {text : NodeId} {environ : FrameHandle} {f : Frame}
    (hf : m.frames.hollow[environ.index]? = some f) (hserial : f.serial = environ.serial)
    (hl : Leads m.frames.hollow m.outline.top environ.index) (hm : m.Still job m') :
    (L.elaborated text environ (L.here m)).Fits m' := by
  have hfs : m'.frames.hollow = m.frames.hollow := congrArg Outline.frames hm.outline
  refine ⟨fun i g hg => ?_, fun r e V hV => ?_⟩
  · rw [hfs] at hg ⊢
    exact h.seen i g hg
  · rw [hfs, hm.nextSerial]
    rcases hV with hV | ⟨rfl, rfl, rfl⟩
    · exact h.held r e V hV
    · refine ⟨by rw [← hserial]; exact hs.given _ f hf, fun g _ _ => ?_⟩
      rcases Relation.ReflTransGen.cases_head hl with heq | ⟨j, ⟨x, hx, -⟩, -⟩
      · rw [← heq] at hf
        exact (h.here hf).of_leads hl
      · exact (h.here hx).of_leads hl

end Lexicon.Fits

namespace Task.Turns

variable {m m' : Machine} {t : Task} {f : Frame}

/-- Where an activation was opened, it is linked to the innermost one, unless a routine was entered. -/
theorem opens (h : t.Turns m m') (hf : m'.frames.hollow = m.frames.hollow ++ [f])
    (ht : ∀ scope environ args body, t ≠ .enterRoutine scope environ args body) :
    f.staticLink = some m.outline.top ∧ f.serial = m.frames.nextSerial ∧
      m'.frames.nextSerial = m.frames.nextSerial + 1 := by
  have opens (h : m.Opens m.outline.top m') : f.staticLink = some m.outline.top ∧
      f.serial = m.frames.nextSerial ∧ m'.frames.nextSerial = m.frames.nextSerial + 1 := by
    obtain ⟨g, hg, hl, hs, hn⟩ := h
    have := List.append_cancel_left (hf.symm.trans hg)
    cases this
    exact ⟨hl, hs, hn⟩
  have stays (h : m.Stays m') : False := by
    have := congrArg List.length h.keys
    rw [hf] at this
    simp at this
  cases t with
  | elaborate | conform => exact h.elim (fun h => (stays h).elim) opens
  | enterLoop | enterBody => exact opens h
  | enterRoutine scope environ args body => exact absurd rfl (ht scope environ args body)
  | leave depth =>
    have := congrArg (fun s : FrameStack => s.hollow.length) h
    simp only [hf, FrameStack.hollow_truncate, List.length_append, List.length_take,
      List.length_singleton] at this
    omega
  | _ => exact (stays h).elim

theorem cases (h : t.Turns m m') : m'.frames.nextSerial = m.frames.nextSerial ∨
    ∃ f, m'.frames.hollow = m.frames.hollow ++ [f] := by
  have opens {link : Nat} (h : m.Opens link m') : ∃ f, m'.frames.hollow = m.frames.hollow ++ [f] := by
    obtain ⟨f, hf, -⟩ := h
    exact ⟨f, hf⟩
  cases t with
  | elaborate | conform => exact h.imp (fun h => h.nextSerial) opens
  | enterLoop | enterBody | enterRoutine => exact .inr (opens h)
  | leave depth =>
    rw [show m'.frames = _ from h]
    exact .inl rfl
  | _ => exact .inl h.nextSerial

end Task.Turns

namespace Lexicon

variable {job : Job} {starts : NodeId → Prop} {L L' : Lexicon} {m m' : Machine} {t : Task}
  {rest work : Agenda}

/-- A routine text is elaborated in an outline that stays, and its environ is found on the chain. -/
theorem environ_of_exec (hw : job.program.WellScoped starts) (hj : job.program.JumpsOutward starts)
    {K : NodeId → FrameHandle → Prop} {text : NodeId} {scope : ScopeId} {params : Nat} {body : NodeId}
    (h : Scoped job starts K (.elaborate text :: rest) m)
    (hk : job.program.tree.kind text = .routineText scope params body)
    (he : (Task.elaborate text).exec job m = .ok work m') :
    m.Still job m' ∧ ∃ environ f,
      (do m.frames.handle (← m.frames.resolve (job.program.environLevel text))) = .ok environ ∧
      m.frames.hollow[environ.index]? = some f ∧ f.serial = environ.serial ∧
      Leads m.frames.hollow m.outline.top environ.index := by
  have still := (Exec.wp_ok (Exec.elaborate_quiet text (by rw [hk]; rfl) m) he).1
  obtain ⟨s, hs⟩ := h.placed.1
  obtain ⟨k, f, hr, hl, hf, -⟩ := hs.environ hw hj hk h.nested
  have htop : m.outline.top = m.frames.depth - 1 := by simp [Outline.top, Machine.outline]
  refine ⟨still, ⟨k, f.serial⟩, f, ?_, hf, rfl, by rw [htop]; exact hl⟩
  rw [FrameStack.hollow_getElem?] at hf
  obtain ⟨x, hx, rfl⟩ := Option.map_eq_some_iff.mp hf
  simp [hr, Bind.bind, Except.bind, FrameStack.handle, hx, Frame.hollow]

/-- Whatever a task does can be noted. -/
theorem exists_notes (hw : job.program.WellScoped starts) (hj : job.program.JumpsOutward starts)
    (h : Scoped job starts L.Knows (t :: rest) m) (he : t.exec job m = .ok work m') :
    ∃ L', L.Notes job m m' t L' := by
  have hturns := Exec.wp_ok (Exec.exec_turns h.consistent.sound h.consistent.along.1) he
  by_cases hr : ∃ text scope params body, t = .elaborate text ∧
      job.program.tree.kind text = .routineText scope params body
  · obtain ⟨text, scope, params, body, rfl, hk⟩ := hr
    obtain ⟨-, environ, f, henv, -⟩ := environ_of_exec hw hj h hk he
    exact ⟨_, .elaborated hk henv⟩
  by_cases hc : ∃ scope environ args body, t = .enterRoutine scope environ args body
  · obtain ⟨scope, link, args, body, rfl⟩ := hc
    obtain ⟨s, text, params, f, -, -, hcalls, hf, ⟨V, hV⟩, -⟩ := h.placed.1
    obtain ⟨g, hg, -⟩ := hturns
    refine ⟨_, .called hcalls ?_ hV hg⟩
    have hf : m.frames.hollow[link]? = some f := hf
    rw [FrameStack.hollow_getElem?] at hf
    obtain ⟨x, hx, rfl⟩ := Option.map_eq_some_iff.mp hf
    simp [FrameStack.handle, hx, Frame.hollow]
  rcases hturns.cases with hn | ⟨f, hf⟩
  · refine ⟨L, .other hn fun text scope params body ht hk => ?_⟩
    exact hr ⟨text, scope, params, body, ht, hk⟩
  · refine ⟨_, .entered (fun scope environ args body ht => ?_) hf⟩
    exact hc ⟨scope, environ, args, body, ht⟩

/-- A step keeps to the static scopes, and the frames stay those that are designated. -/
theorem Notes.step (hw : job.program.WellScoped starts) (hj : job.program.JumpsOutward starts)
    (h : Scoped job starts L.Knows (t :: rest) m) (hL : L.Fits m)
    (he : t.exec job m = .ok work m') (hN : L.Notes job m m' t L') :
    Scoped job starts L'.Knows (work ++ rest) m' ∧ L'.Fits m' := by
  have hturns := Exec.wp_ok (Exec.exec_turns h.consistent.sound h.consistent.along.1) he
  have hs := h.consistent.sound
  have new (n : NodeId) (scope : ScopeId) (params : Nat) (body : NodeId) (environ : FrameHandle)
      (ht : t = .elaborate n) (hk : job.program.tree.kind n = .routineText scope params body)
      (henv : (do m.frames.handle (← m.frames.resolve (job.program.environLevel n))) =
        .ok environ) : L'.Knows n environ := by
    subst ht
    cases hN with
    | entered _ hf =>
      have := congrArg Outline.frames (environ_of_exec hw hj h hk he).1.outline
      rw [show m'.outline.frames = m'.frames.hollow from rfl, hf] at this
      exact absurd this (by simp [Machine.outline])
    | elaborated hk' henv' =>
      cases henv.symm.trans henv'
      exact ⟨_, .inr ⟨rfl, rfl, rfl⟩⟩
    | other _ hno => exact absurd hk (hno n scope params body rfl)
  have after := h.exec hw hj hN.knows new he
  refine ⟨after, ?_⟩
  have hlen {f : Frame} {link : Nat} (hf : m'.frames.hollow = m.frames.hollow ++ [f])
      (hl : f.staticLink = some link) : link < m.frames.hollow.length := by
    have hlast : m'.frames.hollow[m.frames.hollow.length]? = some f := by simp [hf]
    exact (after.nested.linked hlast hl).1
  cases hN with
  | @entered _ ht f hf =>
    obtain ⟨hl, hserial, hnext⟩ := hturns.opens hf ht
    have hlt := hlen hf hl
    exact hL.opened hs after.nested hf hl hlt hserial hnext
      (hL.here (List.getElem?_eq_getElem hlt))
  | @called _ link _ _ text environ V _ henv hV f hf =>
    obtain ⟨g, hg, hl, hserial, hnext⟩ := hturns
    cases List.append_cancel_left (hf.symm.trans hg)
    refine hL.opened hs after.nested hf hl (hlen hf hl) hserial hnext ?_
    simp only [FrameStack.handle] at henv
    split at henv
    · next x hx =>
      cases henv
      exact (hL.held text _ V hV).2 x.hollow (by simp [FrameStack.hollow_getElem?, hx]) rfl
    · cases henv
  | elaborated hk henv =>
    obtain ⟨still, environ', f, henv', hf, hserial, hl⟩ := environ_of_exec hw hj h hk he
    cases henv.symm.trans henv'
    exact hL.elaborated hs hf hserial hl still
  | other hn _ =>
    refine hL.outlast after.nested (Nat.le_of_eq hn.symm) (fun i f hf => ?_) hturns.outlast
    rw [← hn]
    exact after.consistent.sound.given i f hf

end Lexicon

end Algol68
