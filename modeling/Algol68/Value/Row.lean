import Algol68.Fault.Basic
import Algol68.Number.Word
/-!
Rows: elements in row-major order under a list of bounds, one pair for each dimension.  Extents
are computed exactly.
-/

namespace Algol68

/-- The bounds of one dimension; it is empty when `upper` is below `lower`. -/
structure Bounds where
  lower : Int64
  upper : Int64
  deriving DecidableEq, Inhabited

namespace Bounds

/-- The number of elements between the bounds. -/
def extent (b : Bounds) : Nat := (b.upper.toInt - b.lower.toInt + 1).toNat

/-- The extent as a 64-bit count: the one extent that does not fit counts one less. -/
def count (b : Bounds) : Nat := min b.extent maxCount

def isEmpty (b : Bounds) : Bool := b.upper < b.lower

def contains (b : Bounds) (i : Int64) : Bool := b.lower ≤ i && i ≤ b.upper

/-- The bounds from one to `n`. -/
def upTo (n : Nat) : Bounds := ⟨1, saturate n⟩

end Bounds

/-- The number of elements under a list of bounds. -/
def volume (dims : List Bounds) : Nat := (dims.map Bounds.count).foldr (· * ·) 1

structure Row (α : Type) where
  dims : List Bounds
  elements : Array α
  deriving Inhabited

namespace Row

variable {α : Type}

/-- A row of one dimension, counted from one. -/
def vector (elements : Array α) : Row α := ⟨[.upTo elements.size], elements⟩

/-- A row of no elements: from one to zero in each of its dimensions, which are at least one. -/
def empty (dims : Nat) : Row α := ⟨List.replicate (max dims 1) ⟨1, 0⟩, #[]⟩

def size (r : Row α) : Nat := r.elements.size

def dimensions (r : Row α) : Nat := r.dims.length

/-- The distance between neighbours in dimension `d`. -/
def stride (r : Row α) (d : Nat) : Nat := volume (r.dims.drop (d + 1))

/-- The row-major position of a full subscript, each part checked in the order of dimensions. -/
def positionIn : List Bounds → List Int64 → Checked Nat
  | b :: dims, i :: subscripts =>
    if b.contains i then do
      let rest ← positionIn dims subscripts
      return (i.toInt - b.lower.toInt).toNat * volume dims + rest
    else fault (.indexOutOfBounds i b.lower b.upper)
  | _, _ => return 0

def position (r : Row α) (subscripts : List Int64) : Checked Nat := positionIn r.dims subscripts

/-- The element at a position in row-major order. -/
def elementAt (r : Row α) (k : Nat) : Checked α :=
  match r.elements[k]? with
  | some x => .ok x
  | none => fault (.indexOutOfBounds (Int64.ofNat k) 0 (Int64.ofInt ((r.size : Int) - 1)))

/-- The element under a full subscript. -/
def select (r : Row α) (subscripts : List Int64) : Checked α := do
  r.elementAt (← r.position subscripts)

end Row

/-- What stands between the brackets of a slice, for one dimension. -/
inductive Indexer where
  | at (index : Int64)
  | trim (lower upper : Option Int64)
  deriving DecidableEq, Inhabited

namespace Indexer

def isSubscript : Indexer → Bool
  | .at _ => true
  | .trim .. => false

/-- The subscript an indexer stands for in a slice of subscripts only. -/
def subscript : Indexer → Int64
  | .at i => i
  | .trim lower _ => lower.getD 1

/-- The part of a dimension that a trimmer leaves: its own bounds, or those of the dimension
where it gives none. -/
def trimmed (b : Bounds) (lower upper : Option Int64) : Bounds :=
  ⟨lower.getD b.lower, upper.getD b.upper⟩

/-- The first subscript and the number of subscripts that an indexer picks from a dimension. -/
def range (b : Bounds) : Indexer → Checked (Int64 × Nat)
  | .at i => if b.contains i then .ok (i, 1) else fault (.indexOutOfBounds i b.lower b.upper)
  | .trim lower upper =>
    let t := trimmed b lower upper
    if t.isEmpty then .ok (t.lower, t.count)
    else if !b.contains t.lower then fault (.indexOutOfBounds t.lower b.lower b.upper)
    else if !b.contains t.upper then fault (.indexOutOfBounds t.upper b.lower b.upper)
    else .ok (t.lower, t.count)

end Indexer

namespace Row

variable {α β : Type}

/-- The subscripts of a slice, one for each dimension. -/
def subscripts (r : Row α) (indexers : List Indexer) : Checked (List Int64) :=
  if indexers.length = r.dimensions then .ok (indexers.map Indexer.subscript)
  else fault (.dimensionMismatch r.dimensions indexers.length)

/-- The ranges that the indexers pick, in the order of dimensions. -/
def ranges : List Bounds → List Indexer → Checked (List (Int64 × Nat))
  | b :: dims, i :: indexers => do
    let first ← i.range b
    return first :: (← ranges dims indexers)
  | _, _ => return []

/-- Every full subscript within the ranges, in row-major order. -/
def subscriptsWithin : List (Int64 × Nat) → List (List Int64)
  | [] => [[]]
  | (first, n) :: rest =>
    let inner := subscriptsWithin rest
    (List.range n).flatMap fun (step : Nat) =>
      inner.map (saturate (first.toInt + step) :: ·)

/-- The part of a row that the indexers pick.  It has one dimension for each trimmer, counted
from one. -/
def trim (r : Row α) (indexers : List Indexer) : Checked (Row α) := do
  if indexers.length ≠ r.dimensions then
    fault (.dimensionMismatch r.dimensions indexers.length)
  let picked ← ranges r.dims indexers
  let dims := (indexers.zip picked).filterMap fun (i, range) =>
    if i.isSubscript then none else some (Bounds.upTo range.2)
  let total := (picked.map Prod.snd).foldr (· * ·) 1
  let elements ← if total = 0 then return ⟨dims, #[]⟩ else (subscriptsWithin picked).mapM r.select
  return ⟨dims, elements.toArray⟩

/-- The integers from `first` to `last`. -/
def interval (first last : Int64) : List Int64 :=
  (List.range (last.toInt - first.toInt + 1).toNat).map fun (k : Nat) =>
    Int64.ofInt (first.toInt + k)

/-- The elements `m[i, i + k]` of a row of two dimensions. -/
def diagonal (r : Row α) (k : Int64) : Checked (Row α) :=
  match r.dims with
  | [rows, cols] => do
    let first := max rows.lower (saturate (cols.lower.toInt - k.toInt))
    let last := min rows.upper (saturate (cols.upper.toInt - k.toInt))
    let elements ← (interval first last).mapM fun i => r.select [i, i + k]
    -- past the largest integer the count goes on at the least, which is no index of these rows
    if first ≤ last ∧ last = Int64.maxValue then
      fault (.indexOutOfBounds Int64.minValue rows.lower rows.upper)
    else return vector elements.toArray
  | dims => fault (.dimensionMismatch 2 dims.length)

/-- Rows and columns exchanged. -/
def transpose (r : Row α) : Checked (Row α) :=
  match r.dims with
  | [rows, cols] => do
    let n := rows.count
    let m := cols.count
    let positions :=
      if n = 0 then [] else (List.range m).flatMap fun j => (List.range n).map fun i => i * m + j
    return ⟨[cols, rows], (← positions.mapM r.elementAt).toArray⟩
  | dims => fault (.dimensionMismatch 2 dims.length)

/-- A vector as a matrix of one row, or of one column, with the single index `k`. -/
def asMatrix (r : Row α) (k : Int64) (column : Bool) : Checked (Row α) :=
  match r.dims with
  | [b] => .ok ⟨if column then [b, ⟨k, k⟩] else [⟨k, k⟩, b], r.elements⟩
  | dims => fault (.dimensionMismatch 1 dims.length)

/-- The row with one more dimension in front, of the single index one. -/
def enclose (r : Row α) : Row α := ⟨⟨1, 1⟩ :: r.dims, r.elements⟩

/-- Rows of equal bounds, one after the other along a new first dimension.  A row without
elements comes from an empty list. -/
def stack (dims : Nat) (rowOf : β → Checked (Row α)) : List β → Checked (Row α)
  | [] => .ok (empty dims)
  | x :: xs => do
    let first ← rowOf x
    let rest ← xs.mapM fun y => do
      let r ← rowOf y
      if r.dims = first.dims then return r.elements else fault .raggedDisplay
    return ⟨.upTo (xs.length + 1) :: first.dims, rest.foldl (· ++ ·) first.elements⟩

end Row

end Algol68
