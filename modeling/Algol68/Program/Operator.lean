import Algol68.Program.Ident
/-!
The operators and procedures of the standard prelude, and the other small vocabularies of program
trees: denotations and coercions.
-/

namespace Algol68

/-- An operator of the standard prelude. -/
inductive StandardOperator where
  | add
  | sub
  | mul
  /-- Division that yields a real number. -/
  | div
  /-- Division of integers. -/
  | over
  | mod
  | pow
  | eq
  | ne
  | lt
  | le
  | gt
  | ge
  | and
  | or
  | not
  | neg
  | abs
  /-- The monadic plus. -/
  | plus
  | upb
  | lwb
  | elem
  | concat
  deriving DecidableEq, Inhabited

/-- The symbol an operator is written with. -/
def StandardOperator.symbol : StandardOperator → String
  | .add | .plus => "+"
  | .sub | .neg => "-"
  | .mul => "*"
  | .div => "/"
  | .over => "%"
  | .mod => "MOD"
  | .pow => "**"
  | .eq => "="
  | .ne => "/="
  | .lt => "<"
  | .le => "<="
  | .gt => ">"
  | .ge => ">="
  | .and => "AND"
  | .or => "OR"
  | .not => "NOT"
  | .abs => "ABS"
  | .upb => "UPB"
  | .lwb => "LWB"
  | .elem => "ELEM"
  | .concat => "+:"

/-- A procedure of the standard prelude. -/
inductive StandardProcedure where
  | print
  | newline
  deriving DecidableEq, Inhabited

/-- The operator of a formula: a standard one, or one whose routine is held by a local. -/
inductive Operator where
  | standard (op : StandardOperator)
  | user (slot : Slot)
  deriving DecidableEq, Inhabited

/-- The coercions a program tree spells out. -/
inductive CoercionKind where
  | dereference
  | deprocedure
  | unite
  | widen
  | row
  | void
  deriving DecidableEq, Inhabited

end Algol68
