import Algol68.Value.Basic
/-!
Values made from other values: displays of collateral clauses, rowed values, and the contents of
new locations.
-/

namespace Algol68

namespace Value

/-- The characters of a display of characters and strings. -/
def joinTexts : List Value → Checked (List Char)
  | [] => .ok []
  | v :: vs => do
    match v.text? with
    | some text => return text ++ (← joinTexts vs)
    | none => mismatch "CHAR" v

/-- The value of a display of the given mode. -/
def display (modes : ModeTable) (mode : ModeId) (values : List Value) : Checked Value :=
  match modes.get mode with
  | .struct _ => .ok (.struct values.toArray)
  | .row 1 _ => .ok (.row (.vector values.toArray))
  | .row dims _ => do return .row (← Row.stack dims asRow values)
  | .string => do return .string (String.ofList (← joinTexts values))
  | _ =>
    match values with
    | [v] => .ok v
    | _ => mismatch "row or structure display" (values.headD .void)

/-- A value rowed to a mode: a row gains a dimension, a character becomes a string, anything else
becomes a row of one element. -/
def rowed (modes : ModeTable) (target : ModeId) (v : Value) : Value :=
  match modes.get target, v with
  | .string, .char c => .string c.toString
  | .row dims _, .row r => if dims = r.dimensions + 1 then .row r.enclose else .row (.vector #[v])
  | _, _ => .row (.vector #[v])

/-- The number of elements under the bounds of a generator, if neither it nor a product of leading
extents passes 64 bits. -/
def volume? (dims : List Bounds) : Option Nat :=
  dims.foldlM (fun n b => if n * b.count ≤ maxCount then some (n * b.count) else none) 1

/-- The contents of a new location.  A row has as many undefined elements as its bounds ask for. -/
def initial (modes : ModeTable) (limit : Nat) (mode : ModeId) (dims : List Bounds) :
    Checked Value :=
  match modes.get mode with
  | .row n element =>
    if n = dims.length then
      match (volume? dims).filter (· ≤ limit) with
      | some count => .ok (.row ⟨dims, Array.replicate count (undefinedOf modes element)⟩)
      | none => fault (.objectTooLarge limit)
    else .ok (undefinedOf modes mode)
  | _ => .ok (undefinedOf modes mode)

end Value

end Algol68
