import Algol68.Program.Scope
import Algol68.Value.Basic
/-!
Activations of ranges.  Frames form a stack; the static link of a frame points to the frame of the
range around it, further down.  Locals are found by level along the static links of the innermost
frame.
-/

namespace Algol68

/-- Where a labelled clause that runs in a frame can be resumed. -/
structure Resumption where
  owner : NodeId
  /-- The depth of the expression stack when the clause was entered. -/
  baseline : Nat
  deriving DecidableEq, Inhabited

/-- The activation of a range. -/
structure Frame where
  scope : ScopeId
  level : Nat
  staticLink : Option Nat
  /-- No two activations of a run have the same serial number. -/
  serial : Nat
  locals : Array Value
  resumption : Option Resumption
  deriving Inhabited

structure FrameStack where
  frames : Array Frame
  nextSerial : Nat

namespace FrameStack

/-- A stack of the standard environ alone. -/
def standard (locals : Array Value) : FrameStack :=
  ⟨#[⟨.standard, 0, none, 0, locals, none⟩], 1⟩

def depth (s : FrameStack) : Nat := s.frames.size

/-- The place of the innermost frame. -/
def top (s : FrameStack) : Checked Nat :=
  if s.frames.isEmpty then fault (.missingFrame 0) else .ok (s.frames.size - 1)

/-- Refuse a further frame when `limit` frames are active. -/
def checkRoom (s : FrameStack) (limit : Option Nat) : Checked Unit :=
  match limit.filter (· ≤ s.frames.size) with
  | some limit => fault (.frameDepthExceeded limit)
  | none => .ok ()

/-- Open a frame on top. -/
def push (s : FrameStack) (scope : ScopeId) (level : Nat) (staticLink : Option Nat)
    (locals : Array Value) : FrameStack :=
  ⟨s.frames.push ⟨scope, level, staticLink, s.nextSerial, locals, none⟩, s.nextSerial + 1⟩

/-- Close frames until `depth` remain. -/
def truncate (s : FrameStack) (depth : Nat) : FrameStack :=
  { s with frames := s.frames.shrink depth }

def modify (s : FrameStack) (index : Nat) (f : Frame → Frame) : FrameStack :=
  { s with frames := s.frames.modify index f }

/-- The handle of the activation at a place. -/
def handle (s : FrameStack) (index : Nat) : Checked FrameHandle :=
  match s.frames[index]? with
  | some frame => .ok ⟨index, frame.serial⟩
  | none => fault (.missingFrame 0)

/-- Whether the activation of a handle is still on the stack. -/
def isLive (s : FrameStack) (h : FrameHandle) : Bool :=
  match s.frames[h.index]? with
  | some frame => frame.serial == h.serial
  | none => false

/-- The frame at `level` on the static chain of a frame, links followed as long as they lead to
deeper levels than that. -/
def resolveFrom (s : FrameStack) (level : Nat) : (links : Nat) → Nat → Checked Nat
  | 0, _ => fault (.missingFrame level)
  | links + 1, index =>
    match s.frames[index]? with
    | none => fault (.missingFrame level)
    | some frame =>
      if frame.level = level then .ok index
      else
        match frame.staticLink with
        | some link =>
          if level < frame.level then s.resolveFrom level links link
          else fault (.missingFrame level)
        | none => fault (.missingFrame level)

/-- The frame at `level` on the static chain of the innermost frame.  Static links point further
down, so there are at most as many as frames. -/
def resolve (s : FrameStack) (level : Nat) : Checked Nat := do
  s.resolveFrom level s.frames.size (← s.top)

/-- The first activation of `scope` on the static chain of a frame. -/
def findScopeFrom (s : FrameStack) (scope : ScopeId) : (links : Nat) → Nat → Option Frame
  | 0, _ => none
  | links + 1, index => do
    let frame ← s.frames[index]?
    if frame.scope = scope then return frame
    else s.findScopeFrom scope links (← frame.staticLink)

/-- The first activation of `scope` on the static chain of the innermost frame. -/
def findScope (s : FrameStack) (scope : ScopeId) : Option Frame :=
  s.findScopeFrom scope s.frames.size (s.frames.size - 1)

/-- The place of the frame that holds a local.  Where there is no such local, `found` is the value
the fault speaks of. -/
def holder (s : FrameStack) (slot : Slot) (found : Value) : Checked Nat := do
  let index ← s.resolve slot.level
  match (s.frames[index]?).bind (·.locals[slot.offset]?) with
  | some _ => return index
  | none => Value.mismatch "local" found

/-- The local at `offset` of the frame at a place. -/
def localAt (s : FrameStack) (index offset : Nat) : Value :=
  ((s.frames[index]?).bind (·.locals[offset]?)).getD .void

/-- Give the local at `offset` of the frame at a place a value. -/
def setLocal (s : FrameStack) (index offset : Nat) (v : Value) : FrameStack :=
  s.modify index fun frame => { frame with locals := frame.locals.setIfInBounds offset v }

/-- The value of a local. -/
def load (s : FrameStack) (slot : Slot) : Checked Value := do
  return s.localAt (← s.holder slot .void) slot.offset

/-- Give a local a value. -/
def store (s : FrameStack) (slot : Slot) (v : Value) : Checked FrameStack := do
  return s.setLocal (← s.holder slot v) slot.offset v

end FrameStack

end Algol68
