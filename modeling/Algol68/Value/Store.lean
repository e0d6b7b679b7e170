import Algol68.Value.Basic
/-!
The locations of a run and what they hold.  A name is read and assigned along its path; an
assignment replaces one part of its location and leaves the rest as it was.
-/

namespace Algol68

namespace Value

/-- The part of a value that a step leads to. -/
def stepInto : Value → Step → Checked Value
  | .struct fields, .field i =>
    match fields[i]? with
    | some v => .ok v
    | none => mismatch "structure field" (.struct fields)
  | .row r, .element k => r.elementAt k
  | .nil, _ => fault .nilAccess
  | .undefined m, _ => fault (.undefinedValue (Value.undefined m).shape.text)
  | v, _ => mismatch "structure or row" v

/-- The part of a value at the end of a path. -/
def read : Value → List Step → Checked Value
  | v, [] => .ok v
  | v, s :: path => do (← v.stepInto s).read path

/-- The value with the part at the end of a path replaced. -/
def write (new : Value) : Value → List Step → Checked Value
  | _, [] => .ok new
  | v, s :: path =>
    match v, s with
    | .struct fields, .field i =>
      match fields[i]? with
      | some part => do return .struct (fields.setIfInBounds i (← write new part path))
      | none =>
        fault (.indexOutOfBounds (Int64.ofNat i) 0 (Int64.ofInt ((fields.size : Int) - 1)))
    | .row r, .element k => do
      let part ← write new (← r.elementAt k) path
      return .row ⟨r.dims, r.elements.setIfInBounds k part⟩
    | .nil, _ => fault .nilAccess
    | .undefined _, _ => fault (.undefinedValue "structure or row")
    | other, _ => mismatch "structure or row" other

end Value

/-- The locations of a run, each with its current value. -/
structure Store where
  cells : Array Value

namespace Store

def empty : Store := ⟨#[]⟩

/-- A new location. -/
def allocate (s : Store) (v : Value) : Name × Store := (⟨s.cells.size, []⟩, ⟨s.cells.push v⟩)

def cell (s : Store) (k : Nat) : Value := s.cells.getD k .void

/-- The value a name refers to. -/
def get (s : Store) (n : Name) : Checked Value := (s.cell n.cell).read n.path

/-- What the location of a name holds after an assignment to the name. -/
def assigned (s : Store) (n : Name) (v : Value) : Checked Value :=
  Value.write v (s.cell n.cell) n.path

/-- Replace what a location holds. -/
def put (s : Store) (k : Nat) (v : Value) : Store := ⟨s.cells.setIfInBounds k v⟩

/-- Assign to a name. -/
def set (s : Store) (n : Name) (v : Value) : Checked Store := do
  return s.put n.cell (← s.assigned n v)

end Store

end Algol68
