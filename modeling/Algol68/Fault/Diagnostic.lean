import Algol68.Fault.Basic
/-!
Faults as they are reported.  The place is a line and column where the source text is at hand, else
the span of the fault.
-/

namespace Algol68

/-- A reported fault. -/
structure Diagnostic where
  category : Category
  message : String
  span : Option Span
  position : Option Position
  notes : List String
  deriving DecidableEq, Inhabited

namespace Diagnostic

def render (d : Diagnostic) : String :=
  match d.position, d.span with
  | some p, _ => s!"{d.category.text} at {p.line}:{p.column}: {d.message}"
  | none, some s => s!"{d.category.text} at {s.render}: {d.message}"
  | none, none => s!"{d.category.text}: {d.message}"

/-- The routines being run where a fault occurred, as a note. -/
def traceNote : Option Trace → List String
  | none | some [] => []
  | some trace => ["routine activations:\n" ++ trace.render]

/-- The report of a fault, with line and column if the source text is given. -/
def ofFault (source : Option String) (f : Fault) : Diagnostic where
  category := f.category
  message := f.cause.message
  span := f.span
  position :=
    match source, f.span.filter (!·.isDummy) with
    | some text, some span => some (span.position text)
    | _, _ => none
  notes := f.notes.map Note.message ++ traceNote f.trace

end Diagnostic

end Algol68
