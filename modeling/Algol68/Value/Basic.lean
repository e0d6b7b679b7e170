import Algol68.Value.Row
import Algol68.Program.Operator
import Algol68.Program.Mode
import Algol68.Number.Shortest
/-!
The values a program computes with.  A name is a cell of the store together with a path of fields
and elements into it; a routine value is a routine text together with the activation of its
environ.
-/

namespace Algol68

/-- An activation: its place in the frame stack, and the serial number no other one has. -/
structure FrameHandle where
  index : Nat
  serial : Nat
  deriving DecidableEq, Inhabited

inductive Procedure where
  | routine (text : NodeId) (environ : FrameHandle)
  | standard (procedure : StandardProcedure)
  deriving DecidableEq, Inhabited

/-- A step from a value into one of its parts. -/
inductive Step where
  | field (index : Nat)
  | element (position : Nat)
  deriving DecidableEq, Inhabited

/-- A name: a location, or a part of one.  Two names are identical when both cell and path
agree. -/
structure Name where
  cell : Nat
  path : List Step
  deriving DecidableEq, Inhabited

namespace Name

/-- The name of a part of what this name refers to. -/
def extend (n : Name) (s : Step) : Name := ⟨n.cell, n.path ++ [s]⟩

def field (n : Name) (index : Nat) : Name := n.extend (.field index)

def element (n : Name) (position : Nat) : Name := n.extend (.element position)

end Name

inductive Value where
  | void
  | int (n : Int64)
  | real (x : Float)
  | bool (b : Bool)
  | char (c : Char)
  | string (text : String)
  | format (text : String)
  | nil
  | name (n : Name)
  | row (r : Row Value)
  | struct (fields : Array Value)
  | union (variant : ModeId) (payload : Value)
  | procedure (p : Procedure)
  /-- A value of a mode that was never assigned. -/
  | undefined (mode : ModeId)
  deriving Inhabited

namespace Value

mutual

/-- Equality of values: real numbers compare as numbers, names by identity. -/
def equal : Value → Value → Bool
  | .void, .void | .nil, .nil => true
  | .int m, .int n => m == n
  | .real x, .real y => x == y
  | .bool a, .bool b => a == b
  | .char c, .char d => c == d
  | .string s, .string t | .format s, .format t => s == t
  | .name m, .name n => m == n
  | .row ⟨dims, ⟨xs⟩⟩, .row ⟨dims', ⟨ys⟩⟩ => dims == dims' && equalLists xs ys
  | .struct ⟨xs⟩, .struct ⟨ys⟩ => equalLists xs ys
  | .union m v, .union n w => m == n && equal v w
  | .procedure p, .procedure q => p == q
  | .undefined m, .undefined n => m == n
  | _, _ => false

def equalLists : List Value → List Value → Bool
  | [], [] => true
  | x :: xs, y :: ys => equal x y && equalLists xs ys
  | _, _ => false

end

def shape : Value → Shape
  | .void => .void
  | .int _ => .int
  | .real _ => .real
  | .bool _ => .bool
  | .char _ => .char
  | .string _ => .string
  | .format _ => .format
  | .nil => .nil
  | .name _ => .name
  | .row _ => .row
  | .struct _ => .struct
  | .union .. => .union
  | .procedure _ => .procedure
  | .undefined _ => .undefined

/-- Fail because a value has another form than `expected`. -/
def mismatch {α : Type} (expected : String) (found : Value) : Checked α :=
  fault (.valueMismatch expected found.shape)

/-- The undefined value of a mode nested less than `depth` deep. -/
def undefinedTo (modes : ModeTable) : (depth : Nat) → ModeId → Value
  | 0, m => .undefined m
  | depth + 1, m =>
    match modes.get m with
    | .struct fields =>
      .struct (fields.map fun f => undefinedTo modes depth f.mode).toArray
    | .row dims _ => .row (.empty dims)
    | .void => .void
    | _ => .undefined m

/-- The undefined value of a mode.  It has the structure of the mode, so that its fields can be
assigned one by one.  A mode refers to earlier entries only, so its nesting is at most its own
index. -/
def undefinedOf (modes : ModeTable) (m : ModeId) : Value := undefinedTo modes (m.index + 1) m

def asInt : Value → Checked Int64
  | .int n => .ok n
  | .undefined _ => fault (.undefinedValue "INT")
  | v => mismatch "INT" v

/-- A real number; an integer widens to one. -/
def asReal : Value → Checked Float
  | .real x => .ok x
  | .int n => .ok n.toFloat
  | .undefined _ => fault (.undefinedValue "REAL")
  | v => mismatch "REAL" v

def asBool : Value → Checked Bool
  | .bool b => .ok b
  | .undefined _ => fault (.undefinedValue "BOOL")
  | v => mismatch "BOOL" v

def asName : Value → Checked Name
  | .name n => .ok n
  | .nil => fault .nilAccess
  | v => mismatch "REF" v

/-- A row; a string is the row of its characters. -/
def asRow : Value → Checked (Row Value)
  | .row r => .ok r
  | .string text => .ok (.vector (text.toList.map Value.char).toArray)
  | .undefined _ => fault (.undefinedValue "row")
  | v => mismatch "row" v

/-- The characters of a string or of a single character. -/
def text? : Value → Option (List Char)
  | .string s => some s.toList
  | .char c => some [c]
  | _ => none

/-- The printed text of a value that has no printable parts. -/
def leafText : Value → String
  | .int n => toString n
  | .real x => Decimal.ofReal x
  | .bool b => if b then "T" else "F"
  | .char c => c.toString
  | .string s | .format s => s
  | .nil => "NIL"
  | .void => ""
  | v => v.shape.text

end Value

instance : BEq Value := ⟨Value.equal⟩

end Algol68
