import Algol68.Value.Store
/-!
Parts of values: slices of rows and strings, and fields of structures.  Through a name they give
the name of the part, where the part is a location of its own.
-/

namespace Algol68

namespace Value

/-- The element under the subscripts, or the part that the indexers leave of a row. -/
def sliceRow (row : Row Value) (indexers : List Indexer) : Checked Value := do
  if indexers.all Indexer.isSubscript then row.select (← row.subscripts indexers)
  else return .row (← row.trim indexers)

/-- The string of the characters among some values. -/
def ofChars (vs : Array Value) : Value :=
  .string (String.ofList (vs.toList.filterMap fun
    | .char c => some c
    | _ => none))

/-- A slice.  Subscripts on a name give the name of an element; a trimmed string is a string. -/
def slice (store : Store) (base : Value) (indexers : List Indexer) : Checked Value :=
  match base with
  | .name n => do
    let row ← (← store.get n).asRow
    if indexers.all Indexer.isSubscript then
      return .name (n.element (← row.position (← row.subscripts indexers)))
    else return .row (← row.trim indexers)
  | .string text => do
    let row ← (Value.string text).asRow
    if indexers.all Indexer.isSubscript then sliceRow row indexers
    else return ofChars (← row.trim indexers).elements
  | other => do sliceRow (← other.asRow) indexers

mutual

/-- A field of a structure; of a name the name of the field; of a row the row of the fields. -/
def field (index : Nat) : Value → Checked Value
  | .struct fields =>
    match fields[index]? with
    | some v => .ok v
    | none => mismatch "structure field" (.struct fields)
  | .name n => .ok (.name (n.field index))
  | .row ⟨dims, ⟨elements⟩⟩ => do return .row ⟨dims, (← fieldOfEach index elements).toArray⟩
  | .nil => fault .nilAccess
  | .undefined _ => fault (.undefinedValue "STRUCT")
  | v => mismatch "STRUCT" v

def fieldOfEach (index : Nat) : List Value → Checked (List Value)
  | [] => .ok []
  | v :: vs => do
    let first ← field index v
    return first :: (← fieldOfEach index vs)

end

end Value

end Algol68
