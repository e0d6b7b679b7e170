import Algol68.Program.Mode
/-!
Lexical ranges and labels.  A range lies one level deeper than the range around it and knows the
modes of its locals in the order of their slots.
-/

namespace Algol68

/-- A lexical range. -/
structure Scope where
  /-- The range around it; the standard environ has none. -/
  parent : Option ScopeId
  level : Nat
  locals : Array ModeId
  hasLabels : Bool
  deriving Inhabited

namespace Scope

/-- The standard environ: level zero. -/
def standard : Scope := ⟨none, 0, #[], false⟩

end Scope

/-- Every range of a program; the first is the standard environ. -/
structure ScopeTable where
  scopes : Array Scope

namespace ScopeTable

def new : ScopeTable := ⟨#[Scope.standard]⟩

def get (t : ScopeTable) (s : ScopeId) : Scope := t.scopes.getD s.index .standard

/-- Open a range inside `parent`.  Levels are numbers of 16 bits and wrap around. -/
def push (t : ScopeTable) (parent : ScopeId) : ScopeId × ScopeTable :=
  let level := ((t.get parent).level + 1) % 65536
  (⟨t.scopes.size⟩, ⟨t.scopes.push ⟨some parent, level, #[], false⟩⟩)

/-- Declare a local at the next free slot of a range. -/
def addLocal (t : ScopeTable) (s : ScopeId) (m : ModeId) : Slot × ScopeTable :=
  (⟨(t.get s).level, (t.get s).locals.size⟩,
    ⟨t.scopes.modify s.index fun scope => { scope with locals := scope.locals.push m }⟩)

def markLabels (t : ScopeTable) (s : ScopeId) : ScopeTable :=
  ⟨t.scopes.modify s.index fun scope => { scope with hasLabels := true }⟩

def size (t : ScopeTable) : Nat := t.scopes.size

def isEmpty (t : ScopeTable) : Bool := t.scopes.isEmpty

end ScopeTable

/-- A label of a range. -/
structure Label where
  name : Tag
  /-- The range it is declared in. -/
  scope : ScopeId
  /-- The serial clause that can be resumed at it. -/
  owner : Option NodeId
  /-- The labelled unit it stands before. -/
  target : Option NodeId
  deriving DecidableEq, Inhabited

structure LabelTable where
  labels : Array Label

namespace LabelTable

def new : LabelTable := ⟨#[]⟩

def get (t : LabelTable) (l : LabelId) : Label := t.labels.getD l.index default

def push (t : LabelTable) (l : Label) : LabelId × LabelTable :=
  (⟨t.labels.size⟩, ⟨t.labels.push l⟩)

def setTarget (t : LabelTable) (l : LabelId) (target : NodeId) : LabelTable :=
  ⟨t.labels.modify l.index fun label => { label with target := some target }⟩

def setOwner (t : LabelTable) (l : LabelId) (owner : NodeId) : LabelTable :=
  ⟨t.labels.modify l.index fun label => { label with owner := some owner }⟩

def size (t : LabelTable) : Nat := t.labels.size

def isEmpty (t : LabelTable) : Bool := t.labels.isEmpty

end LabelTable

end Algol68
