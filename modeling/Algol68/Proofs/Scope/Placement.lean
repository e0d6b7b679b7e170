import Algol68.Proofs.Annotation.Truthful
import Algol68.Proofs.Clause.Items
import Algol68.Proofs.Scope.Chain

/-! The frames that tasks find. A unit that stands in a range is evaluated with a frame of that range
innermost, or of one around it if only ranges without locals and labels lie between, and it finds a
frame for every range it needs. -/

namespace Algol68

open Outline (Along)
open Relation (ReflTransGen)

namespace Program

variable (p : Program)

/-- Only ranges that are never entered lie between one range and another one inside of it: they have
neither locals nor labels. -/
abbrev Skips : ScopeId → ScopeId → Prop := ReflTransGen fun outer inner =>
  p.Child inner outer ∧ (p.scopes.get inner).locals = #[] ∧ (p.scopes.get inner).hasLabels = false

/-- The ranges of a loop, and where its counter lies. -/
structure LoopProper (outer : ScopeId) (parts : LoopParts) : Prop where
  loop : p.Child parts.scope outer
  body : p.Child parts.bodyScope parts.scope
  counter : ∀ slot ∈ parts.counter, p.Declares parts.scope slot

variable {p} {s d : ScopeId}

theorem Skips.encloses (h : p.Skips s d) : p.Encloses s d :=
  Relation.ReflTransGen.mono (fun _ _ h => h.1) _ _ h

end Program

/-- The units that a loop runs in its body's range. -/
def LoopParts.bodyUnits (parts : LoopParts) : List NodeId :=
  parts.whilePart.toList ++ [parts.doPart] ++ parts.untilPart.toList

/-- The frame at a place leads to a frame of every range around `s` that the node needs. -/
def Supports (p : Program) (fs : List Frame) (i : Nat) (s s' : ScopeId) (n : NodeId) : Prop :=
  ∀ d, p.Needs s s' n d → Reaches fs i d

namespace Outline

variable (p : Program) (starts : NodeId → Prop) (known : NodeId → FrameHandle → Prop) (o : Outline)

/-- The place of the innermost frame. -/
def top : Nat := o.frames.length - 1

/-- The innermost frame is that of a range, or of one around it with only ranges that are never
entered between them. -/
def Inside (s : ScopeId) : Prop := ∃ f, o.frames[o.top]? = some f ∧ p.Skips f.scope s

/-- A node that stands in a range finds the frames it needs. -/
structure Evaluable (s : ScopeId) (n : NodeId) : Prop where
  stands : p.Stands starts s n
  inside : o.Inside p s
  supports : Supports p o.frames o.top s s n

/-- A node finds the frames it needs. -/
def Finds (n : NodeId) : Prop := ∃ s, o.Evaluable p starts s n

/-- From a range, static links lead to the frame of the range around it that a slot belongs to. -/
def Sees (s : ScopeId) (slot : Slot) : Prop :=
  o.Inside p s ∧ ∃ d, p.Encloses d s ∧ p.Declares d slot ∧ Reaches o.frames o.top d

/-- The units in the body of a loop will find the frames they need, once the ranges of the loop
inside of `s` are entered. -/
structure Loops (s : ScopeId) (parts : LoopParts) : Prop where
  inside : o.Inside p s
  units : ∀ n ∈ parts.bodyUnits, p.Stands starts parts.bodyScope n ∧
    Supports p o.frames o.top s parts.bodyScope n

/-- The loop has begun: its ranges were entered. -/
structure Iterates (parts : LoopParts) : Prop where
  proper : ∃ outer, p.LoopProper outer parts
  loops : o.Loops p starts parts.bodyScope parts
  counter : Reaches o.frames o.top parts.scope

/-- The body of a routine will find the frames it needs, once its range is entered with a static link
to the given place. -/
def Enters (environ : Nat) (q : ScopeId) (body : NodeId) : Prop :=
  ∃ s r k f, p.Stands starts s r ∧ p.tree.kind r = .routineText q k body ∧
    (∃ a ∈ o.calls.head?, a.routine = some r) ∧ o.frames[environ]? = some f ∧
    known r ⟨environ, f.serial⟩ ∧ p.Encloses f.scope s ∧ Supports p o.frames environ s q body

/-- What integers are gathered for finds the frames it needs. -/
def Serves : Purpose → Prop
  | .loop parts => ∃ outer, p.LoopProper outer parts ∧ o.Loops p starts outer parts
  | .diagonal operand | .matrix operand _ => o.Finds p starts operand
  | .generate _ | .slice .. => True

/-- A task finds the frames it needs. -/
def Placed : Task → Prop
  | .unit n | .elaborate n | .clause n _ | .shortCircuit n _ => o.Finds p starts n
  | .labelled c => ∀ n ∈ c.items, o.Finds p starts n
  | .branch thenPart elsePart _ =>
    o.Finds p starts thenPart ∧ ∀ n ∈ elsePart, o.Finds p starts n
  | .choose alternatives outPart _ | .conform alternatives outPart _ =>
    (∀ n ∈ alternatives, o.Finds p starts n) ∧ ∀ n ∈ outPart, o.Finds p starts n
  | .store slot _ | .bind slot => ∃ s, o.Sees p s slot
  | .operate slot _ site => ∃ s, p.Stands starts s site ∧ o.Sees p s slot
  | .declare slot init => (∃ s, o.Sees p s slot) ∧ ∀ n ∈ init, o.Finds p starts n
  | .take g => o.Serves p starts g.purpose ∧ ∀ n, some n ∈ g.wanted → o.Finds p starts n
  | .enterLoop i => ∃ outer, p.LoopProper outer i.parts ∧ o.Loops p starts outer i.parts
  | .enterBody i => (∃ outer, p.LoopProper outer i.parts) ∧
    o.Loops p starts i.parts.scope i.parts ∧ Reaches o.frames o.top i.parts.scope
  | .iterate i | .afterWhile i | .afterUntil i | .advance i => o.Iterates p starts i.parts
  | .arguments nodes _ | .indexers nodes => ∀ n ∈ nodes, o.Finds p starts n
  | .enterRoutine q environ _ body => o.Enters p starts known environ q body
  | _ => True

variable {p starts o} {s d q : ScopeId} {n c : NodeId}

theorem along_of_forall {P : Outline → Task → Prop} {A : Agenda} (hA : ∀ t ∈ A, t.plain)
    (h : ∀ t ∈ A, P o t) : Along P o A := by
  induction A with
  | nil => trivial
  | cons t A ih =>
    refine ⟨h t (List.mem_cons_self ..), ?_⟩
    rw [pass_of_plain (hA t (List.mem_cons_self ..))]
    exact ih (fun u hu => hA u (List.mem_cons_of_mem _ hu)) fun u hu => h u (List.mem_cons_of_mem _ hu)

end Outline

namespace Supports

variable {p : Program} {fs : List Frame} {i : Nat} {s s' t : ScopeId} {n c : NodeId}

/-- What a part of a node needs, the node needs. -/
theorem part (h : Supports p fs i s s' n) (hc : (t, c) ∈ p.standings s' (p.tree.kind n)) :
    Supports p fs i s t c := by
  rintro d ⟨he, x, hb, hu⟩
  exact h d ⟨he, x, .head hc hb, hu⟩

/-- Around a range inside of `s` that is not needed itself, nothing more is needed than around `s`. -/
theorem widen {q : ScopeId} (h : Supports p fs i s s' n) (hq : p.Child q s)
    (hn : ¬ p.Needs q s' n q) : Supports p fs i q s' n := by
  intro d hd
  refine h d ⟨hd.encloses.of_child hq ?_, hd.used⟩
  rintro rfl
  exact hn hd

end Supports

namespace Outline

variable {p : Program} {starts : NodeId → Prop} {o : Outline} {s d q : ScopeId} {n c : NodeId}

/-- The parts of what is inlined stand where it does. -/
theorem standing_of_inlines (hi : (p.tree.kind n).inlines)
    (hc : c ∈ p.tree.children (p.tree.kind n)) : (s, c) ∈ p.standings s (p.tree.kind n) := by
  cases hk : p.tree.kind n with
  | group | declarationList | serialClause | labeled =>
    rw [hk] at hc
    exact List.mem_map_of_mem hc
  | _ => simp [hk, NodeKind.inlines] at hi

namespace Evaluable

theorem found (h : o.Evaluable p starts s n) : o.Finds p starts n := ⟨s, h⟩

theorem part (h : o.Evaluable p starts s n) (hc : (s, c) ∈ p.standings s (p.tree.kind n)) :
    o.Evaluable p starts s c :=
  ⟨.inner h.stands hc, h.inside, h.supports.part hc⟩

theorem sees (h : o.Evaluable p starts s n) {slot : Slot} (hd : p.Encloses d s)
    (hs : p.Declares d slot) (hu : slot.level ∈ p.uses (p.tree.kind n)) : o.Sees p s slot := by
  refine ⟨h.inside, d, hd, hs, h.supports d ⟨hd, (s, n), .refl, hd, ?_⟩⟩
  rw [hs.level]
  exact hu

/-- The only unit of a clause that can be reduced finds what it needs without the clause's frame. -/
theorem reduced (hw : p.WellScoped starts) (hj : p.JumpsOutward starts)
    (h : o.Evaluable p starts s n) {inner : NodeId} (hr : p.Reduces n inner) :
    o.Finds p starts inner := by
  obtain ⟨scope, serial, range, items, hn, hlocals, hserial, hlabels, hflat⟩ := hr.clause
  have hp := hw.proper h.stands
  rw [hn] at hp
  obtain ⟨hchild, hruns⟩ := hp
  obtain rfl := hruns range items hserial
  have hclosed : (range, serial) ∈ p.standings s (p.tree.kind n) := by
    simp [hn, Program.standings]
  have below : p.Stands starts range inner ∧ Supports p o.frames o.top s range inner := by
    have parts (n : NodeId) (hn : p.Stands starts range n ∧ Supports p o.frames o.top s range n)
        (hi : (p.tree.kind n).inlines) (c : NodeId) (hc : c ∈ p.tree.children (p.tree.kind n)) :
        p.Stands starts range c ∧ Supports p o.frames o.top s range c :=
      have hc := standing_of_inlines hi hc
      ⟨.inner hn.1 hc, hn.2.part hc⟩
    have hs : p.Stands starts range serial ∧ Supports p o.frames o.top s range serial :=
      ⟨.inner h.stands hclosed, h.supports.part hclosed⟩
    refine Tree.forall_flatten parts (fun c hc => ?_) (by rw [hflat]; exact List.mem_singleton_self _)
    exact parts serial hs (by rw [hserial]; rfl) c (by rw [hserial]; exact hc)
  refine ⟨range, below.1, ?_, ?_⟩
  · obtain ⟨f, hf, hs⟩ := h.inside
    exact ⟨f, hf, hs.tail ⟨hchild, hlocals, hlabels⟩⟩
  · refine below.2.widen hchild ?_
    rintro ⟨-, x, hb, he, hu⟩
    rcases hw.occupied hj (below.1.part hb) he hu with hl | hl
    · exact hl hlocals
    · rw [hlabels] at hl
      cases hl

end Evaluable

end Outline

/-! Entering a range. -/

section

variable {p : Program} {fs : List Frame} {f g : Frame} {link i : Nat} {s s' d : ScopeId} {n : NodeId}

theorem Nested.push (h : Nested p fs) (hlevel : f.level = p.level f.scope)
    (hlink : f.staticLink = some link) (hg : fs[link]? = some g)
    (he : p.Encloses g.scope f.scope) (hl : p.level g.scope < p.level f.scope) :
    Nested p (fs ++ [f]) := by
  have hlt : link < fs.length := (List.getElem?_eq_some_iff.mp hg).1
  have kept : ∀ {i : Nat} {x : Frame}, (fs ++ [f])[i]? = some x →
      fs[i]? = some x ∨ i = fs.length ∧ x = f := by
    intro i x hx
    rw [List.getElem?_append] at hx
    split at hx
    · exact .inl hx
    · obtain ⟨hi, rfl⟩ := List.getElem?_eq_some_iff.mp hx
      simp only [List.length_cons, List.length_nil] at hi
      exact .inr ⟨by omega, by simp⟩
  constructor
  · intro i x hx
    rcases kept hx with hx | ⟨-, rfl⟩
    · exact h.levels hx
    · exact hlevel
  · intro i l x hx hxl
    rcases kept hx with hx | ⟨hi, rfl⟩
    · obtain ⟨hli, y, hy, hxy⟩ := h.linked hx hxl
      refine ⟨hli, y, ?_, hxy⟩
      rw [List.getElem?_append_left (List.getElem?_eq_some_iff.mp hy).1]
      exact hy
    · cases hlink.symm.trans hxl
      refine ⟨by omega, g, ?_, he, hl⟩
      rw [List.getElem?_append_left hlt]
      exact hg
  · intro i x hx hxl
    rcases kept hx with hx | ⟨-, rfl⟩
    · exact h.rooted hx hxl
    · cases hlink.symm.trans hxl

theorem link_push (hlink : f.staticLink = some link) : Link (fs ++ [f]) fs.length link :=
  ⟨f, by simp, hlink⟩

theorem Reaches.push_self : Reaches (fs ++ [f]) fs.length f.scope :=
  ⟨fs.length, f, .refl, by simp, rfl⟩

theorem Reaches.push (h : Reaches fs link d) (hn : Nested p fs) (hlink : f.staticLink = some link)
    (hlt : link < fs.length) : Reaches (fs ++ [f]) fs.length d := by
  obtain ⟨k, x, hl, hx, hs⟩ := (SameBelow.append fs [f]).reaches hn hlt h
  exact ⟨k, x, .head (link_push hlink) hl, hx, hs⟩

/-- Whoever enters a range finds there what is needed of it, and of the ranges around it. -/
theorem Supports.push (h : Supports p fs link s s' n) (hn : Nested p fs)
    (hlink : f.staticLink = some link) (hlt : link < fs.length) (hq : p.Child f.scope s) :
    Supports p (fs ++ [f]) fs.length f.scope s' n := by
  intro d hd
  by_cases hdq : d = f.scope
  · rw [hdq]
    exact Reaches.push_self
  · exact (h d ⟨hd.encloses.of_child hq hdq, hd.used⟩).push hn hlink hlt

end

namespace Outline

variable {p : Program} {starts : NodeId → Prop} {o : Outline} {f : Frame} {s : ScopeId}
  {n c : NodeId} {parts : LoopParts}

/-- The outline after a frame was opened. -/
def opened (o : Outline) (f : Frame) : Outline := { o with frames := o.frames ++ [f] }

theorem opened_top (o : Outline) (f : Frame) : (o.opened f).top = o.frames.length := by
  simp [top, opened]

theorem inside_opened : (o.opened f).Inside p f.scope := by
  refine ⟨f, ?_, .refl⟩
  rw [opened_top]
  simp [opened]

/-- A frame that was opened holds the locals of its range. -/
theorem sees_opened {slot : Slot} (h : p.Declares f.scope slot) :
    (o.opened f).Sees p f.scope slot := by
  refine ⟨inside_opened, f.scope, .refl, h, ?_⟩
  rw [opened_top]
  exact Reaches.push_self

/-- From the body of a loop its counter is seen. -/
theorem Iterates.sees (h : o.Iterates p starts parts) {slot : Slot} (hs : slot ∈ parts.counter) :
    o.Sees p parts.bodyScope slot := by
  obtain ⟨outer, hp⟩ := h.proper
  exact ⟨h.loops.inside, _, .single hp.body, hp.counter slot hs, h.counter⟩

theorem Inside.top_lt (h : o.Inside p s) : o.top < o.frames.length := by
  obtain ⟨f, hf, -⟩ := h
  exact (List.getElem?_eq_some_iff.mp hf).1

theorem Evaluable.enter (h : o.Evaluable p starts s n) (hn : Nested p o.frames)
    (hlink : f.staticLink = some o.top) (hq : p.Child f.scope s)
    (hc : (f.scope, c) ∈ p.standings s (p.tree.kind n)) :
    (o.opened f).Evaluable p starts f.scope c := by
  refine ⟨.inner h.stands hc, inside_opened, ?_⟩
  rw [opened_top]
  exact (h.supports.part hc).push hn hlink h.inside.top_lt hq

theorem Loops.enter (h : o.Loops p starts s parts) (hn : Nested p o.frames)
    (hlink : f.staticLink = some o.top) (hq : p.Child f.scope s) :
    (o.opened f).Loops p starts f.scope parts := by
  refine ⟨inside_opened, fun c hc => ?_⟩
  obtain ⟨hstands, hsupports⟩ := h.units c hc
  refine ⟨hstands, ?_⟩
  rw [opened_top]
  exact hsupports.push hn hlink h.inside.top_lt hq

/-- A frame of a child of the range at hand is nested in the frames there are. -/
theorem Inside.nested (h : o.Inside p s) (hn : Nested p o.frames)
    (hlevel : f.level = p.level f.scope) (hlink : f.staticLink = some o.top)
    (hq : p.Child f.scope s) : Nested p (o.opened f).frames := by
  obtain ⟨g, hg, hs⟩ := h
  refine hn.push hlevel hlink hg (hs.encloses.tail hq) ?_
  have := hs.encloses.level_le
  have := hq.level
  omega

end Outline

end Algol68
