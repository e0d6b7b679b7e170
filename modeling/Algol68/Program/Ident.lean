/-!
Identifiers of the things a program is made of.  Each is an index into the table that holds the
thing, and its type says which table.  An absent identifier is `none`.
-/

namespace Algol68

/-- The tables of a program. -/
inductive Table where
  | nodes
  | modes
  | scopes
  | labels
  | loops
  | alternatives
  deriving DecidableEq

/-- An index into the table `t`. -/
structure Index (t : Table) where
  index : Nat
  deriving DecidableEq, Inhabited

abbrev NodeId := Index .nodes
abbrev ModeId := Index .modes
abbrev ScopeId := Index .scopes
abbrev LabelId := Index .labels
abbrev LoopId := Index .loops
abbrev AlternativeId := Index .alternatives

/-- The name of an entry of the table, as identifiers are written. -/
def Table.entry : Table → String
  | .nodes => "NodeId"
  | .modes => "ModeId"
  | .scopes => "ScopeId"
  | .labels => "LabelId"
  | .loops => "LoopId"
  | .alternatives => "AltId"

namespace Index

/-- The number that stands for an absent identifier where identifiers are plain numbers. -/
def absent : Nat := 4294967295

def ofNumber? (t : Table) (n : Nat) : Option (Index t) :=
  if n = absent then none else some ⟨n⟩

def number {t : Table} : Option (Index t) → Nat
  | some i => i.index
  | none => absent

def render {t : Table} : Option (Index t) → String
  | some i => s!"{t.entry}({i.index})"
  | none => t.entry ++ "::INVALID"

end Index

/-- The range every program starts from: the standard environ. -/
def ScopeId.standard : ScopeId := ⟨0⟩

/-- A run of consecutive entries in a pool of child lists. -/
structure Segment (t : Table) where
  start : Nat
  length : Nat
  deriving DecidableEq, Inhabited

abbrev NodeRange := Segment .nodes
abbrev ModeRange := Segment .modes

namespace Segment

def isEmpty {t : Table} (s : Segment t) : Bool := s.length == 0

/-- The entries of `pool` that a segment covers. -/
def read {t : Table} (s : Segment t) (pool : Array (Index t)) : List (Index t) :=
  (pool.extract s.start (s.start + s.length)).toList

end Segment

def NodeRange.render (r : NodeRange) : String := s!"NodeRange({r.start}..{r.start + r.length})"

def ModeRange.render (r : ModeRange) : String :=
  s!"ModeRange \x7b start: {r.start}, len: {r.length} \x7d"

/-- The address of a local: the lexical level of its range and its place in that range. -/
structure Slot where
  level : Nat
  offset : Nat
  deriving DecidableEq, Inhabited

def Slot.render (s : Slot) : String := s!"Slot \x7b level: {s.level}, offset: {s.offset} \x7d"

end Algol68
