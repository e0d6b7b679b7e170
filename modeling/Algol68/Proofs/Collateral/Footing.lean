import Algol68.Proofs.Machine.Outcome
import Algol68.Proofs.Run.Signal
import Algol68.Proofs.Stack.Shift

/-! What an evaluation stands on. The values that lie on the expression stack when an evaluation begins
are its footing. The evaluation notes depths of the stack, on tasks and on the frames that it opens, and
these count the values of the footing; nothing else shows how high the footing is. -/

namespace Algol68

/-- What lies on the stack when an evaluation begins, and the first serial number it gives out. -/
structure Footing where
  values : Array Value
  next : Nat

/-- The cause of a fault, the depths it speaks of counted from further down. -/
def Cause.above (k : Nat) : Cause → Cause
  | .stackImbalance expected actual => .stackImbalance (expected + k) (actual + k)
  | c => c

def Fault.above (k : Nat) (f : Fault) : Fault := { f with cause := f.cause.above k }

/-- A signal from an evaluation on a footing that is higher by `k`. -/
def Signal.above (k : Nat) : Signal → Signal
  | .fault f => .fault (f.above k)
  | s => s

theorem Cause.above_of_not_ofStack {c : Cause} (h : c.ofStack = false) (k : Nat) : c.above k = c := by
  cases c with
  | stackImbalance => cases h
  | _ => rfl

theorem Fault.above_of_not_ofStack {f : Fault} (h : f.cause.ofStack = false) (k : Nat) :
    f.above k = f := by
  rw [Fault.above, Cause.above_of_not_ofStack h]

theorem Signal.above_above (s : Signal) (j k : Nat) : (s.above j).above k = s.above (j + k) := by
  cases s with
  | fault f => cases hc : f.cause <;> simp [Signal.above, Fault.above, Cause.above, hc, Nat.add_assoc]
  | jump j => rfl

theorem Fault.locate_above (f : Fault) (k : Nat) (span : Span) (calls : Trace) :
    (f.above k).locate span calls = (f.locate span calls).above k := by
  unfold Fault.locate
  by_cases h : f.span.isSome <;> simp [Fault.above, h]

namespace Footing

def height (F : Footing) : Nat := F.values.size

/-- A frame that the evaluation opened counts the values of the footing. -/
def frame (F : Footing) (f : Frame) : Frame :=
  if F.next ≤ f.serial then
    { f with resumption := f.resumption.map fun r => { r with baseline := r.baseline + F.height } }
  else f

def frames (F : Footing) (s : FrameStack) : FrameStack := ⟨s.frames.map F.frame, s.nextSerial⟩

/-- A machine with the footing under its stack. -/
def machine (F : Footing) (m : Machine) : Machine := { m with
  stack := F.values ++ m.stack
  frames := F.frames m.frames }

def clause (F : Footing) (c : LabelledClause) : LabelledClause :=
  { c with baseline := c.baseline + F.height }

def task (F : Footing) : Task → Task
  | .yields mode baseline => .yields mode (baseline + F.height)
  | .cut baseline => .cut (baseline + F.height)
  | .labelled c => .labelled (F.clause c)
  | .coerce kind node operand baseline => .coerce kind node operand (baseline + F.height)
  | .aggregate mode baseline => .aggregate mode (baseline + F.height)
  | t => t

def agenda (F : Footing) (A : Agenda) : Agenda := A.map F.task

def jump (F : Footing) (j : Jump) : Jump :=
  if F.next ≤ j.frame then { j with baseline := j.baseline + F.height } else j

def signal (F : Footing) : Signal → Signal
  | .fault f => .fault (f.above F.height)
  | .jump j => .jump (F.jump j)

/-- How an operation ends on the footing. -/
def result {α β : Type} (F : Footing) (f : α → β) :
    EStateM.Result Signal Machine α → EStateM.Result Signal Machine β
  | .ok a m => .ok (f a) (F.machine m)
  | .error s m => .error (F.signal s) (F.machine m)

/-- A footing of the same evaluation that is no higher. -/
structure Below (G F : Footing) : Prop where
  next : G.next = F.next
  height : G.height ≤ F.height

theorem Below.refl (F : Footing) : F.Below F := ⟨rfl, Nat.le_refl _⟩

variable {F : Footing}

/-! Frames. -/

@[simp] theorem frame_scope (f : Frame) : (F.frame f).scope = f.scope := by
  unfold frame
  split <;> rfl

@[simp] theorem frame_level (f : Frame) : (F.frame f).level = f.level := by
  unfold frame
  split <;> rfl

@[simp] theorem frame_staticLink (f : Frame) : (F.frame f).staticLink = f.staticLink := by
  unfold frame
  split <;> rfl

@[simp] theorem frame_serial (f : Frame) : (F.frame f).serial = f.serial := by
  unfold frame
  split <;> rfl

@[simp] theorem frame_locals (f : Frame) : (F.frame f).locals = f.locals := by
  unfold frame
  split <;> rfl

theorem frame_of_vacant {f : Frame} (h : f.resumption = none) : F.frame f = f := by
  unfold frame
  rw [h]
  split
  · rw [← h]
    cases f
    simp_all
  · rfl

theorem frame_of_serial_lt {f : Frame} (h : f.serial < F.next) : F.frame f = f :=
  if_neg (Nat.not_le.mpr h)

variable (s : FrameStack)

@[simp] theorem frames_getElem? (i : Nat) :
    (F.frames s).frames[i]? = (s.frames[i]?).map F.frame := by
  simp [frames]

@[simp] theorem frames_depth : (F.frames s).depth = s.depth := by
  simp [frames, FrameStack.depth]

@[simp] theorem frames_top : (F.frames s).top = s.top := by
  simp [FrameStack.top, frames]

@[simp] theorem frames_checkRoom (limit : Option Nat) :
    (F.frames s).checkRoom limit = s.checkRoom limit := by
  simp [FrameStack.checkRoom, frames]

@[simp] theorem frames_handle (i : Nat) : (F.frames s).handle i = s.handle i := by
  simp only [FrameStack.handle, frames_getElem?]
  cases s.frames[i]? <;> simp

@[simp] theorem frames_isLive (h : FrameHandle) : (F.frames s).isLive h = s.isLive h := by
  simp only [FrameStack.isLive, frames_getElem?]
  cases s.frames[h.index]? <;> simp

theorem frames_resolveFrom (level links i : Nat) :
    (F.frames s).resolveFrom level links i = s.resolveFrom level links i := by
  induction links generalizing i with
  | zero => rfl
  | succ links ih =>
    simp only [FrameStack.resolveFrom, frames_getElem?]
    cases s.frames[i]? with
    | none => rfl
    | some f => simp only [Option.map_some, frame_level, frame_staticLink, ih]

@[simp] theorem frames_resolve (level : Nat) : (F.frames s).resolve level = s.resolve level := by
  have size : (F.frames s).frames.size = s.frames.size := frames_depth s
  simp only [FrameStack.resolve, frames_top, size, frames_resolveFrom]

theorem frames_findScopeFrom (scope : ScopeId) (links i : Nat) :
    (F.frames s).findScopeFrom scope links i = (s.findScopeFrom scope links i).map F.frame := by
  induction links generalizing i with
  | zero => rfl
  | succ links ih =>
    simp only [FrameStack.findScopeFrom, frames_getElem?]
    cases s.frames[i]? with
    | none => rfl
    | some f =>
      simp only [Option.map_some, Option.bind_eq_bind, Option.bind_some, frame_scope,
        frame_staticLink]
      split
      · rfl
      · cases f.staticLink with
        | none => rfl
        | some link => exact ih link

@[simp] theorem frames_findScope (scope : ScopeId) :
    (F.frames s).findScope scope = (s.findScope scope).map F.frame := by
  have size : (F.frames s).frames.size = s.frames.size := frames_depth s
  rw [FrameStack.findScope, size, frames_findScopeFrom]
  rfl

theorem frames_local (i k : Nat) :
    ((F.frames s).frames[i]?).bind (·.locals[k]?) = (s.frames[i]?).bind (·.locals[k]?) := by
  rw [frames_getElem?]
  cases s.frames[i]? with
  | none => rfl
  | some f => simp only [Option.map_some, Option.bind_some, frame_locals]

@[simp] theorem frames_holder (slot : Slot) (v : Value) :
    (F.frames s).holder slot v = s.holder slot v := by
  simp only [FrameStack.holder, frames_resolve, frames_local]

@[simp] theorem frames_load (slot : Slot) : (F.frames s).load slot = s.load slot := by
  simp only [FrameStack.load, FrameStack.localAt, frames_holder, frames_local]

@[simp] theorem frames_push (scope : ScopeId) (level : Nat) (link : Option Nat)
    (locals : Array Value) :
    F.frames (s.push scope level link locals) = (F.frames s).push scope level link locals := by
  simp only [frames, FrameStack.push, Array.map_push]
  rw [frame_of_vacant rfl]

@[simp] theorem frames_truncate (n : Nat) : F.frames (s.truncate n) = (F.frames s).truncate n := by
  simp [frames, FrameStack.truncate]

theorem frames_modify (i : Nat) {g h : Frame → Frame}
    (hg : ∀ f, s.frames[i]? = some f → F.frame (g f) = h (F.frame f)) :
    F.frames (s.modify i g) = (F.frames s).modify i h := by
  simp only [frames, FrameStack.modify]
  congr 1
  apply Array.ext_getElem?
  intro k
  simp only [Array.getElem?_map, Array.getElem?_modify]
  by_cases hk : i = k
  · subst hk
    cases hf : s.frames[i]? with
    | none => simp
    | some f => simpa [hf] using hg f hf
  · simp [hk]

theorem frames_modify_locals (i : Nat) (g : Array Value → Array Value) :
    F.frames (s.modify i fun f => { f with locals := g f.locals }) =
      (F.frames s).modify i fun f => { f with locals := g f.locals } := by
  apply frames_modify
  intro f _
  unfold frame
  split <;> rfl

@[simp] theorem frames_setLocal (i k : Nat) (v : Value) :
    F.frames (s.setLocal i k v) = (F.frames s).setLocal i k v :=
  frames_modify_locals s i fun locals => locals.setIfInBounds k v

/-! Machines, tasks and signals. -/

/-- In a machine all of whose frames are older than the evaluation, only the stack tells of the
footing. -/
theorem machine_of_serial_lt {m : Machine} (h : ∀ f ∈ m.frames.frames, f.serial < F.next) :
    F.machine m = { m with stack := F.values ++ m.stack } := by
  have frames : m.frames.frames.map F.frame = m.frames.frames :=
    (Array.map_congr_left fun f hf => frame_of_serial_lt (h f hf)).trans (Array.map_id _)
  simp only [machine, Footing.frames, frames]

variable (m : Machine)

@[simp] theorem machine_frames : (F.machine m).frames = F.frames m.frames := rfl

@[simp] theorem machine_size : (F.machine m).stack.size = m.stack.size + F.height := by
  simp [machine, height, Nat.add_comm]

theorem machine_shrink (n : Nat) :
    (F.machine m).stack.shrink (n + F.height) = F.values ++ m.stack.shrink n := by
  apply Array.toList_inj.mp
  simp [machine, height, List.take_of_length_le]

@[simp] theorem agenda_append (A B : Agenda) : F.agenda (A ++ B) = F.agenda A ++ F.agenda B :=
  List.map_append

@[simp] theorem agenda_units (ns : List NodeId) : F.agenda (ns.map .unit) = ns.map .unit := by
  simp [agenda, task, Function.comp_def]

theorem agenda_steps (baseline : Nat) (steps : List ChainStep) :
    F.agenda (steps.map (·.task baseline)) = steps.map (·.task (baseline + F.height)) := by
  simp only [agenda, List.map_map]
  apply List.map_congr_left
  intro step _
  cases step <;> rfl

end Footing

end Algol68
