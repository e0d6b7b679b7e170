import Algol68.Proofs.Run.Signal

/-! The outline of a machine: its frames without the values of their locals, and its calls. Only
few tasks change it, and what the tasks of an agenda will do to it is known before they are done.
The outline in which each of them will be done follows. -/

namespace Algol68

/-- A frame without the values of its locals. -/
def Frame.hollow (f : Frame) : Frame := { f with locals := Array.replicate f.locals.size .void }

/-- A frame in which no labelled clause runs any more. -/
def Frame.vacate (f : Frame) : Frame := { f with resumption := none }

/-- A frame in which a labelled clause runs. -/
def Frame.announce (r : Resumption) (f : Frame) : Frame := { f with resumption := some r }

@[simp] theorem Frame.hollow_hollow (f : Frame) : f.hollow.hollow = f.hollow := by
  simp [hollow]

@[simp] theorem Frame.hollow_vacate (f : Frame) : f.vacate.hollow = f.hollow.vacate := rfl

@[simp] theorem Frame.hollow_announce (r : Resumption) (f : Frame) :
    (f.announce r).hollow = f.hollow.announce r := rfl

/-- The frames of a stack without the values of their locals, the innermost last. -/
def FrameStack.hollow (s : FrameStack) : List Frame := s.frames.toList.map Frame.hollow

structure Outline where
  frames : List Frame
  calls : Trace

def Machine.outline (m : Machine) : Outline := ⟨m.frames.hollow, m.calls⟩

namespace FrameStack

@[simp] theorem hollow_length (s : FrameStack) : s.hollow.length = s.depth := by
  simp [hollow, depth]

theorem hollow_getElem? (s : FrameStack) (i : Nat) :
    s.hollow[i]? = (s.frames[i]?).map Frame.hollow := by
  simp [hollow]

@[simp] theorem hollow_truncate (s : FrameStack) (n : Nat) :
    (s.truncate n).hollow = s.hollow.take n := by
  simp [hollow, truncate, List.map_take]

@[simp] theorem hollow_push (s : FrameStack) (scope : ScopeId) (level : Nat) (link : Option Nat)
    (locals : Array Value) :
    (s.push scope level link locals).hollow =
      s.hollow ++ [(Frame.mk scope level link s.nextSerial locals none).hollow] := by
  simp [hollow, push]

theorem hollow_modify (s : FrameStack) (i : Nat) {f g : Frame → Frame}
    (h : ∀ x, (f x).hollow = g x.hollow) : (s.modify i f).hollow = s.hollow.modify i g := by
  apply List.ext_getElem?
  intro k
  simp only [hollow_getElem?, modify, List.getElem?_modify, Array.getElem?_modify]
  by_cases hk : i = k
  · subst hk
    cases s.frames[i]? <;> simp [h]
  · simp [hk]

theorem hollow_modify_locals (s : FrameStack) (i : Nat) {f : Frame → Frame}
    (h : ∀ x, (f x).hollow = x.hollow) : (s.modify i f).hollow = s.hollow := by
  rw [hollow_modify s i (g := id) (fun x => by simp [h])]
  apply List.ext_getElem?
  intro k
  by_cases hk : i = k <;> simp [hk]

@[simp] theorem hollow_setLocal (s : FrameStack) (i k : Nat) (v : Value) :
    (s.setLocal i k v).hollow = s.hollow :=
  s.hollow_modify_locals i fun x => by simp [Frame.hollow]

@[simp] theorem nextSerial_push (s : FrameStack) (scope : ScopeId) (level : Nat)
    (link : Option Nat) (locals : Array Value) :
    (s.push scope level link locals).nextSerial = s.nextSerial + 1 := rfl

@[simp] theorem nextSerial_truncate (s : FrameStack) (n : Nat) :
    (s.truncate n).nextSerial = s.nextSerial := rfl

@[simp] theorem nextSerial_modify (s : FrameStack) (i : Nat) (f : Frame → Frame) :
    (s.modify i f).nextSerial = s.nextSerial := rfl

@[simp] theorem nextSerial_setLocal (s : FrameStack) (i k : Nat) (v : Value) :
    (s.setLocal i k v).nextSerial = s.nextSerial := rfl

end FrameStack

namespace Outline

/-- What doing a task to its end does to the outline, if nothing else does anything to it. -/
def pass (o : Outline) : Task → Outline
  | .leave depth => { o with frames := o.frames.take depth }
  | .endCall => { o with calls := o.calls.tail }
  | .labelled c => { o with frames := o.frames.modify c.frame Frame.vacate }
  | _ => o

theorem length_pass_le (o : Outline) (t : Task) : (o.pass t).frames.length ≤ o.frames.length := by
  cases t with
  | leave depth =>
    simp only [pass, List.length_take]
    omega
  | labelled c => exact Nat.le_of_eq (List.length_modify ..)
  | _ => exact Nat.le_refl _

/-- What doing the tasks of an agenda does to the outline. -/
def passAll (o : Outline) (A : Agenda) : Outline := A.foldl pass o

@[simp] theorem passAll_nil (o : Outline) : o.passAll [] = o := rfl

@[simp] theorem passAll_cons (o : Outline) (t : Task) (A : Agenda) :
    o.passAll (t :: A) = (o.pass t).passAll A := rfl

theorem passAll_append (o : Outline) (A B : Agenda) :
    o.passAll (A ++ B) = (o.passAll A).passAll B := List.foldl_append ..

/-- Each task of an agenda has a property in the outline in which it will be done. -/
def Along (P : Outline → Task → Prop) : Outline → Agenda → Prop
  | _, [] => True
  | o, t :: A => P o t ∧ Along P (o.pass t) A

@[simp] theorem along_nil {P : Outline → Task → Prop} (o : Outline) : Along P o [] := trivial

@[simp] theorem along_cons {P : Outline → Task → Prop} {o : Outline} {t : Task} {A : Agenda} :
    Along P o (t :: A) ↔ P o t ∧ Along P (o.pass t) A := Iff.rfl

theorem along_append {P : Outline → Task → Prop} {o : Outline} {A B : Agenda} :
    Along P o (A ++ B) ↔ Along P o A ∧ Along P (o.passAll A) B := by
  induction A generalizing o with
  | nil => simp
  | cons t A ih => simp [ih, and_assoc]

/-- The innermost frame can be given to a clause: it is not the frame of the standard environ, and
no labelled clause runs in it. -/
structure Vacant (o : Outline) : Prop where
  inner : 2 ≤ o.frames.length
  top : ∀ f, o.frames[o.frames.length - 1]? = some f → f.resumption = none

/-- What the outline is like whenever a task is about to be done. -/
def Admits (o : Outline) : Task → Prop
  | .leave depth => o.frames.length = depth + 1 ∧ o.Vacant
  | .endCall => o.calls ≠ []
  | .labelled c => 1 ≤ c.frame ∧ o.frames.length = c.frame + 1 ∧
      ∃ f, o.frames[c.frame]? = some f ∧ f.serial = c.activation ∧
        f.resumption = some ⟨c.serial, c.baseline⟩
  | .clause .. => o.Vacant
  | .iterate i | .afterWhile i | .afterUntil i | .advance i =>
      o.frames.length = i.body + 1 ∧ o.Vacant
  | .enterRoutine _ environ _ _ => environ < o.frames.length
  | _ => True

end Outline

/-- Whether a task is neither concerned with frames nor ends a call. -/
def Task.plain : Task → Bool
  | .leave _ | .endCall | .labelled _ | .clause .. | .iterate _ | .afterWhile _ | .afterUntil _
  | .advance _ | .enterRoutine .. => false
  | _ => true

namespace Outline

theorem pass_of_plain {o : Outline} {t : Task} (h : t.plain) : o.pass t = o := by
  cases t <;> simp_all [Task.plain, pass]

theorem admits_of_plain {o : Outline} {t : Task} (h : t.plain) : o.Admits t := by
  cases t <;> trivial

theorem passAll_of_plain {o : Outline} {A : Agenda} (h : ∀ t ∈ A, t.plain) : o.passAll A = o := by
  induction A with
  | nil => rfl
  | cons t A ih =>
    rw [passAll_cons, pass_of_plain (h t (by simp)), ih fun u hu => h u (by simp [hu])]

theorem along_of_plain {o : Outline} {A : Agenda} (h : ∀ t ∈ A, t.plain) : Along Admits o A := by
  induction A with
  | nil => trivial
  | cons t A ih =>
    have ht := h t (by simp)
    refine ⟨admits_of_plain ht, ?_⟩
    rw [pass_of_plain ht]
    exact ih fun u hu => h u (by simp [hu])

/-- The frames are those of nested ranges: the standard environ's below all others, each other one
linked to one below it and of the size its range asks for, with serial numbers in the order in
which they were opened, all of them given out before `next`. -/
structure Sound (job : Job) (next : Nat) (o : Outline) : Prop where
  base : ∃ f, o.frames[0]? = some f ∧ f.scope = .standard ∧ f.level = 0 ∧ f.staticLink = none ∧
    f.serial = 0 ∧ f.resumption = none
  linked : ∀ (i : Nat) (f : Frame), o.frames[i + 1]? = some f → (∃ l ≤ i, f.staticLink = some l) ∧
    f.level = (job.program.scopes.get f.scope).level
  sized : ∀ (i : Nat) (f : Frame), o.frames[i]? = some f →
    f.locals.size = (job.program.scopes.get f.scope).locals.size
  ordered : ∀ (i j : Nat) (f g : Frame), i < j → o.frames[i]? = some f → o.frames[j]? = some g →
    f.serial < g.serial
  given : ∀ (i : Nat) (f : Frame), o.frames[i]? = some f → f.serial < next

namespace Sound

variable {job : Job} {next : Nat} {o : Outline}

theorem length_pos (h : o.Sound job next) : 0 < o.frames.length := by
  obtain ⟨f, hf, -⟩ := h.base
  exact (List.getElem?_eq_some_iff.mp hf).1

theorem index_eq (h : o.Sound job next) {i j : Nat} {f g : Frame} (hi : o.frames[i]? = some f)
    (hj : o.frames[j]? = some g) (hs : f.serial = g.serial) : i = j := by
  rcases Nat.lt_trichotomy i j with hlt | heq | hlt
  · exact absurd hs (Nat.ne_of_lt (h.ordered i j f g hlt hi hj))
  · exact heq
  · exact absurd hs.symm (Nat.ne_of_lt (h.ordered j i g f hlt hj hi))

theorem of_le (h : o.Sound job next) {next' : Nat} (hn : next ≤ next') : o.Sound job next' :=
  ⟨h.base, h.linked, h.sized, h.ordered, fun i f hf => Nat.lt_of_lt_of_le (h.given i f hf) hn⟩

theorem of_calls (h : o.Sound job next) (calls : Trace) :
    Sound job next { o with calls := calls } :=
  ⟨h.base, h.linked, h.sized, h.ordered, h.given⟩

theorem take (h : o.Sound job next) {n : Nat} (hn : 0 < n) :
    Sound job next { o with frames := o.frames.take n } := by
  have kept : ∀ {i : Nat} {f : Frame}, (o.frames.take n)[i]? = some f → o.frames[i]? = some f := by
    intro i f hf
    rw [List.getElem?_take] at hf
    split at hf
    · exact hf
    · cases hf
  refine ⟨?_, fun i f hf => h.linked i f (kept hf), fun i f hf => h.sized i f (kept hf),
    fun i j f g hij hi hj => h.ordered i j f g hij (kept hi) (kept hj),
    fun i f hf => h.given i f (kept hf)⟩
  simpa only [List.getElem?_take_of_lt hn] using h.base

theorem modify (h : o.Sound job next) {i : Nat} {g : Frame → Frame} (hi : 0 < i)
    (hg : ∀ f, (g f).scope = f.scope ∧ (g f).level = f.level ∧ (g f).staticLink = f.staticLink ∧
      (g f).serial = f.serial ∧ (g f).locals = f.locals) :
    Sound job next { o with frames := o.frames.modify i g } := by
  have kept : ∀ {k : Nat} {f : Frame}, (o.frames.modify i g)[k]? = some f → ∃ f' : Frame, o.frames[k]? = some f' ∧
      f.scope = f'.scope ∧ f.level = f'.level ∧ f.staticLink = f'.staticLink ∧
      f.serial = f'.serial ∧ f.locals = f'.locals := by
    intro k f hf
    rw [List.getElem?_modify] at hf
    obtain ⟨f', hf', rfl⟩ := Option.map_eq_some_iff.mp hf
    by_cases hik : i = k
    · rw [if_pos hik]
      exact ⟨f', hf', hg f'⟩
    · rw [if_neg hik]
      exact ⟨f', hf', rfl, rfl, rfl, rfl, rfl⟩
  constructor
  · obtain ⟨f, hf, hb⟩ := h.base
    refine ⟨f, ?_, hb⟩
    simp [hf, Nat.ne_of_gt hi]
  · intro k f hf
    obtain ⟨f', hf', hscope, hlevel, hlink, -, -⟩ := kept hf
    rw [hlink, hlevel, hscope]
    exact h.linked k f' hf'
  · intro k f hf
    obtain ⟨f', hf', hscope, -, -, -, hlocals⟩ := kept hf
    rw [hscope, hlocals]
    exact h.sized k f' hf'
  · intro k l f f' hkl hk hl
    obtain ⟨x, hx, -, -, -, hxs, -⟩ := kept hk
    obtain ⟨y, hy, -, -, -, hys, -⟩ := kept hl
    rw [hxs, hys]
    exact h.ordered k l x y hkl hx hy
  · intro k f hf
    obtain ⟨x, hx, -, -, -, hxs, -⟩ := kept hf
    rw [hxs]
    exact h.given k x hx

theorem push (h : o.Sound job next) {f : Frame} {link : Nat} (hl : link < o.frames.length)
    (hlink : f.staticLink = some link) (hlevel : f.level = (job.program.scopes.get f.scope).level)
    (hsize : f.locals.size = (job.program.scopes.get f.scope).locals.size)
    (hserial : f.serial = next) :
    Sound job (next + 1) { o with frames := o.frames ++ [f] } := by
  have kept : ∀ {i : Nat} {g : Frame}, (o.frames ++ [f])[i]? = some g →
      o.frames[i]? = some g ∨ i = o.frames.length ∧ g = f := by
    intro i g hg
    rw [List.getElem?_append] at hg
    split at hg
    · exact .inl hg
    · obtain ⟨hi, rfl⟩ := List.getElem?_eq_some_iff.mp hg
      simp only [List.length_cons, List.length_nil] at hi
      exact .inr ⟨by omega, by simp⟩
  constructor
  · obtain ⟨g, hg, hb⟩ := h.base
    exact ⟨g, by rw [List.getElem?_append_left h.length_pos]; exact hg, hb⟩
  · intro i g hg
    rcases kept hg with hg | ⟨hi, rfl⟩
    · exact h.linked i g hg
    · exact ⟨⟨link, by omega, hlink⟩, hlevel⟩
  · intro i g hg
    rcases kept hg with hg | ⟨-, rfl⟩
    · exact h.sized i g hg
    · exact hsize
  · intro i j a b hij ha hb
    rcases kept ha with ha' | ⟨hi, rfl⟩
    · rcases kept hb with hb' | ⟨-, rfl⟩
      · exact h.ordered i j a b hij ha' hb'
      · rw [hserial]
        exact h.given i a ha'
    · have hlt : j < (o.frames ++ [a]).length := (List.getElem?_eq_some_iff.mp hb).1
      simp only [List.length_append, List.length_cons, List.length_nil] at hlt
      omega
  · intro i g hg
    rcases kept hg with hg | ⟨-, rfl⟩
    · exact Nat.lt_succ_of_lt (h.given i g hg)
    · omega

theorem pass (h : o.Sound job next) {t : Task} (ha : o.Admits t) : (o.pass t).Sound job next := by
  cases t with
  | leave depth =>
    obtain ⟨hlen, hv⟩ := ha
    have := hv.inner
    exact h.take (by omega)
  | endCall => exact h.of_calls _
  | labelled c => exact h.modify ha.1 fun f => ⟨rfl, rfl, rfl, rfl, rfl⟩
  | _ => exact h

theorem passAll (h : o.Sound job next) {A : Agenda} (ha : Along Admits o A) :
    (o.passAll A).Sound job next := by
  induction A generalizing o with
  | nil => exact h
  | cons t A ih => exact ih (h.pass ha.1) ha.2

end Sound

end Outline

end Algol68
