import Algol68.Program.Ident
import Algol68.Source.Span
/-!
What ends an evaluation step early: a fault on its way out of the run, or a jump on its way to the
clause that owns its label.
-/

namespace Algol68

/-- The outermost form of a value. -/
inductive Shape where
  | void
  | int
  | real
  | bool
  | char
  | string
  | format
  | nil
  | name
  | row
  | struct
  | union
  | procedure
  | undefined
  deriving DecidableEq, Inhabited

/-- The name of a form in messages. -/
def Shape.text : Shape → String
  | .void => "VOID"
  | .int => "INT"
  | .real => "REAL"
  | .bool => "BOOL"
  | .char => "CHAR"
  | .string => "STRING"
  | .format => "FORMAT"
  | .nil => "NIL"
  | .name => "REF"
  | .row => "row"
  | .struct => "STRUCT"
  | .union => "UNION"
  | .procedure => "PROC"
  | .undefined => "undefined value"

inductive Category where
  /-- The tree or the machine's own bookkeeping is inconsistent. -/
  | internal
  /-- The program did what its semantics forbids. -/
  | runtime
  deriving DecidableEq, Inhabited

def Category.text : Category → String
  | .internal => "internal error"
  | .runtime => "runtime error"

/-- What went wrong. -/
inductive Cause where
  | unknownNodeKind (kind : String)
  | missingFrame (level : Nat)
  | stackImbalance (expected actual : Nat)
  | stackUnderflow
  | danglingJump (label : String)
  | valueMismatch (expected : String) (found : Shape)
  | assertionFailed
  | integerOverflow (operation : String)
  | divisionByZero
  | negativeExponent (exponent : Int64)
  | indexOutOfBounds (index lower upper : Int64)
  | dimensionMismatch (expected got : Nat)
  | raggedDisplay
  | undefinedValue (mode : String)
  | nilAccess
  | scopeViolation
  | unmatchedConformity
  | expressionStackOverflow (limit : Nat)
  | frameDepthExceeded (limit : Nat)
  | objectTooLarge (limit : Nat)
  deriving DecidableEq, Inhabited

namespace Cause

def category : Cause → Category
  | .unknownNodeKind _ | .missingFrame _ | .stackImbalance .. | .stackUnderflow
  | .danglingJump _ | .valueMismatch .. => .internal
  | _ => .runtime

def message : Cause → String
  | .unknownNodeKind kind => s!"{kind} cannot be evaluated as a unit"
  | .missingFrame level => s!"no active frame at lexical level {level}"
  | .stackImbalance expected actual =>
    s!"expression stack holds {actual} values, expected {expected}"
  | .stackUnderflow => "expression stack underflow"
  | .danglingJump label => s!"jump to label `{label}` found no active owner"
  | .valueMismatch expected found => s!"expected {expected}, found {found.text}"
  | .assertionFailed => "assertion failed"
  | .integerOverflow operation => s!"integer overflow in {operation}"
  | .divisionByZero => "division by zero"
  | .negativeExponent exponent => s!"INT raised to negative power {exponent}"
  | .indexOutOfBounds index lower upper =>
    s!"subscript {index} out of bounds [{lower}:{upper}]"
  | .dimensionMismatch expected got => s!"row has {expected} dimensions, {got} indexers given"
  | .raggedDisplay => "rows in a display have different bounds"
  | .undefinedValue mode => s!"value of mode {mode} is undefined"
  | .nilAccess => "accessing a field or element through NIL"
  | .scopeViolation => "routine called after its environ has been left"
  | .unmatchedConformity => "no alternative of the conformity clause accepts the selector"
  | .expressionStackOverflow limit => s!"expression stack limit of {limit} values exceeded"
  | .frameDepthExceeded limit => s!"frame depth limit of {limit} exceeded"
  | .objectTooLarge limit => s!"object exceeds the size limit of {limit} elements"

end Cause

/-- Something to add to a fault's message. -/
structure Note where
  message : String
  span : Option Span
  deriving DecidableEq, Inhabited

/-- A routine that is being run, and the span of the call that started it. -/
structure Activation where
  /-- The routine text. -/
  routine : Option NodeId
  callSpan : Span
  deriving DecidableEq, Inhabited

/-- Routines being run, the innermost first. -/
abbrev Trace := List Activation

/-- One line for each activation, numbered from the innermost. -/
def Trace.render (t : Trace) : String :=
  String.join <| (t.zipIdx).map fun (a, i) =>
    s!"  {i}: routine {Index.render a.routine} called at {a.callSpan.render}\n"

/-- A fault.  Its span and trace are those of the innermost unit that it left. -/
structure Fault where
  cause : Cause
  span : Option Span
  trace : Option Trace
  notes : List Note
  deriving DecidableEq, Inhabited

namespace Fault

/-- A fault that has not left any unit yet. -/
def of (c : Cause) : Fault := ⟨c, none, none, []⟩

def category (f : Fault) : Category := f.cause.category

def withNote (f : Fault) (message : String) : Fault :=
  { f with notes := f.notes ++ [⟨message, none⟩] }

/-- Record the position of a unit that the fault leaves, and the routines being run there, unless
an inner unit already gave it a position. -/
def locate (f : Fault) (span : Span) (running : Trace) : Fault :=
  if f.span.isSome then f
  else
    { f with
      span := if span.isDummy then none else some span
      trace := if f.trace.isNone && !running.isEmpty then some running else f.trace }

end Fault

/-- The result of an operation that may fault. -/
abbrev Checked := Except Fault

/-- Fail for the given reason. -/
def fault {α : Type} (c : Cause) : Checked α := .error (.of c)

/-- A jump to a label. -/
structure Jump where
  /-- The serial clause that owns the label. -/
  owner : NodeId
  /-- The labelled unit to go on at. -/
  target : Option NodeId
  /-- The serial number of the activation the clause runs in. -/
  frame : Nat
  /-- The depth of the expression stack when the clause was entered. -/
  baseline : Nat
  deriving DecidableEq, Inhabited

/-- Why an evaluation step did not complete. -/
inductive Signal where
  | jump (j : Jump)
  | fault (f : Fault)
  deriving DecidableEq

end Algol68
