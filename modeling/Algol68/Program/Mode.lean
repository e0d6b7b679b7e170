import Algol68.Program.Ident
import Algol68.Program.Interner
/-!
Modes and the table that holds each of them once.  Two modes have one identifier exactly when
they are equal after the variants of unions are put in order, so mode equivalence is equality of
identifiers unless an elaborator says more.
-/

namespace Algol68

namespace ModeId

def void : ModeId := ⟨0⟩
def int : ModeId := ⟨1⟩
def real : ModeId := ⟨2⟩
def bool : ModeId := ⟨3⟩
def char : ModeId := ⟨4⟩
def string : ModeId := ⟨5⟩
def format : ModeId := ⟨6⟩

end ModeId

/-- A field of a structured mode. -/
structure Field where
  name : Tag
  mode : ModeId
  deriving DecidableEq, Inhabited

/-- A mode over modes that are already in the table. -/
inductive Mode where
  | void
  | int
  | real
  | bool
  | char
  | string
  | format
  | ref (target : ModeId)
  | row (dims : Nat) (element : ModeId)
  | struct (fields : List Field)
  | union (variants : List ModeId)
  | proc (params : List ModeId) (result : ModeId)
  deriving DecidableEq, Inhabited

namespace Mode

/-- Put `m` into an ascending list of modes, once. -/
def insertVariant (m : ModeId) : List ModeId → List ModeId
  | [] => [m]
  | n :: rest =>
    if m.index < n.index then m :: n :: rest
    else if m = n then n :: rest
    else n :: insertVariant m rest

/-- The form under which a mode is kept: the variants of a union ascend and none is repeated. -/
def canonical : Mode → Mode
  | .union variants => .union (variants.foldr insertVariant [])
  | m => m

def primitives : Array Mode := #[.void, .int, .real, .bool, .char, .string, .format]

end Mode

/-- Every mode of a program, each at its identifier. -/
structure ModeTable where
  modes : Array Mode

namespace ModeTable

/-- A table of the seven primitive modes. -/
def new : ModeTable := ⟨Mode.primitives⟩

/-- The identifier of a mode, a new one if no equal mode is in the table. -/
def intern (t : ModeTable) (m : Mode) : ModeId × ModeTable :=
  match t.modes.idxOf? m.canonical with
  | some k => (⟨k⟩, t)
  | none => (⟨t.modes.size⟩, ⟨t.modes.push m.canonical⟩)

def get (t : ModeTable) (m : ModeId) : Mode := t.modes.getD m.index .void

def size (t : ModeTable) : Nat := t.modes.size

def isEmpty (t : ModeTable) : Bool := t.modes.isEmpty

def rowDims? (t : ModeTable) (m : ModeId) : Option Nat :=
  match t.get m with
  | .row dims _ => some dims
  | _ => none

def unionVariants? (t : ModeTable) (m : ModeId) : Option (List ModeId) :=
  match t.get m with
  | .union variants => some variants
  | _ => none

/-- The text of a mode, for modes nested less than `depth` deep. -/
def describeTo (t : ModeTable) : (depth : Nat) → ModeId → String
  | 0, _ => ""
  | depth + 1, m =>
    let list (ms : List ModeId) := ", ".intercalate (ms.map (t.describeTo depth))
    match t.get m with
    | .void => "VOID"
    | .int => "INT"
    | .real => "REAL"
    | .bool => "BOOL"
    | .char => "CHAR"
    | .string => "STRING"
    | .format => "FORMAT"
    | .ref target => "REF " ++ t.describeTo depth target
    | .row dims element =>
      "[" ++ String.ofList (List.replicate (dims - 1) ',') ++ "] " ++ t.describeTo depth element
    | .struct fields => "STRUCT (" ++ list (fields.map Field.mode) ++ ")"
    | .union variants => "UNION (" ++ list variants ++ ")"
    | .proc [] result => "PROC " ++ t.describeTo depth result
    | .proc params result => "PROC (" ++ list params ++ ") " ++ t.describeTo depth result

/-- The text of a mode.  A mode refers to earlier entries only, so its nesting is at most its
own index. -/
def describe (t : ModeTable) (m : ModeId) : String := t.describeTo (m.index + 1) m

end ModeTable

/-- What conformity clauses ask about modes. -/
structure ModeOracle where
  /-- Whether two identifiers stand for one mode. -/
  equivalent : ModeId → ModeId → Bool
  /-- The variants of a union, `none` for any other mode. -/
  variants : ModeId → Option (List ModeId)
  /-- Whether a specifier accepts a variant: unless an oracle has it otherwise, if the variant is
  equivalent to it or to one of its own variants. -/
  accepts (pattern variant : ModeId) : Bool :=
    equivalent pattern variant || ((variants pattern).getD []).any fun v => equivalent v variant

namespace ModeTable

/-- Modes are equivalent exactly when their identifiers are equal. -/
def oracle (t : ModeTable) : ModeOracle where
  equivalent a b := a = b
  variants := t.unionVariants?

/-- Besides equal identifiers the listed pairs are equivalent, either way round. -/
def oracleWith (t : ModeTable) (pairs : List (ModeId × ModeId)) : ModeOracle where
  equivalent a b := a = b || pairs.contains (a, b) || pairs.contains (b, a)
  variants := t.unionVariants?

end ModeTable

end Algol68
