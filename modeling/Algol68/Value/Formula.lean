import Algol68.Value.Basic
/-!
The standard operators as functions of their operands.  Integer arithmetic is exact: a result that
does not fit in 64 bits is a fault, never a wrapped number.
-/

namespace Algol68

namespace StandardOperator

/-- The result of an integer operator, if it fits. -/
def checked (op : StandardOperator) (result : Int) : Checked Value :=
  match narrow? result with
  | some n => .ok (.int n)
  | none => fault (.integerOverflow op.symbol)

/-- What a comparison answers, given whether the left operand is less than, equal to or greater
than the right one.  Real numbers may be none of these.  Other operators do not compare. -/
def compare? (op : StandardOperator) (less equal greater : Bool) : Option Bool :=
  match op with
  | .eq => some equal
  | .ne => some !equal
  | .lt => some less
  | .le => some (less || equal)
  | .gt => some greater
  | .ge => some (greater || equal)
  | _ => none

/-- The power of an integer.  The exponent must have 32 bits.  A base of at least two in size
overflows from the 64th power on; for the others only zero and parity of the exponent matter. -/
def intPower (op : StandardOperator) (a b : Int) : Checked Value :=
  if 0x100000000 ≤ b then fault (.integerOverflow op.symbol)
  else if b < 64 then op.checked (a.pow b.toNat)
  else if 2 ≤ a.natAbs then fault (.integerOverflow op.symbol)
  else op.checked (a.pow (b.toNat % 2 + 2))

def onInts (op : StandardOperator) (a b : Int64) : Checked Value :=
  let x := a.toInt
  let y := b.toInt
  match op with
  | .add => op.checked (x + y)
  | .sub => op.checked (x - y)
  | .mul => op.checked (x * y)
  | .over => if b = 0 then fault .divisionByZero else op.checked (x.tdiv y)
  | .mod =>
    if b = 0 then fault .divisionByZero
    else if (narrow? (x / y)).isNone then fault (.integerOverflow op.symbol)
    else op.checked (x % y)
  | .div => if b = 0 then fault .divisionByZero else .ok (.real (a.toFloat / b.toFloat))
  | .pow => if b < 0 then fault (.negativeExponent b) else op.intPower x y
  | _ =>
    match op.compare? (a < b) (a = b) (b < a) with
    | some r => .ok (.bool r)
    | none => Value.mismatch "BOOL operands" (.int a)

/-- The product of `n` in binary: the square is taken once for each digit. -/
def powerLoop (base acc : Float) (n : Nat) : Float :=
  let acc := if n % 2 = 1 then acc * base else acc
  if h : n / 2 = 0 then acc else powerLoop (base * base) acc (n / 2)
  termination_by n

/-- A real number to an integer power, by repeated multiplication when the exponent has 32 bits. -/
def realPower (x : Float) (n : Int64) : Float :=
  if -0x80000000 ≤ n.toInt ∧ n.toInt < 0x80000000 then
    let r := powerLoop x 1 n.toInt.natAbs
    if n < 0 then 1 / r else r
  else x.pow n.toFloat

def onReals (op : StandardOperator) (x y : Float) : Checked Value :=
  match op with
  | .add => .ok (.real (x + y))
  | .sub => .ok (.real (x - y))
  | .mul => .ok (.real (x * y))
  | .div => if y == 0 then fault .divisionByZero else .ok (.real (x / y))
  | .pow => .ok (.real (x.pow y))
  | _ =>
    match op.compare? (x < y) (x == y) (y < x) with
    | some r => .ok (.bool r)
    | none => Value.mismatch "INT operands" (.real x)

def onBools (op : StandardOperator) (a b : Bool) : Checked Value :=
  match op with
  | .and => .ok (.bool (a && b))
  | .or => .ok (.bool (a || b))
  | .eq => .ok (.bool (a == b))
  | .ne => .ok (.bool (a != b))
  | _ => Value.mismatch "INT or REAL operands" (.bool a)

/-- A string of at most `limit` characters. -/
def sized (limit : Nat) (text : List Char) : Checked Value :=
  if text.length ≤ limit then .ok (.string (String.ofList text)) else fault (.objectTooLarge limit)

/-- The text written `times` times; not at all for a negative number. -/
def replicate (limit : Nat) (text : List Char) (times : Int64) : Checked Value :=
  let n := times.toInt.toNat
  if text.length * n ≤ limit then
    .ok (.string (String.ofList (if text.isEmpty then [] else (List.replicate n text).flatten)))
  else fault (.objectTooLarge limit)

/-- Joining and comparing texts; `left` is the left operand as it was given. -/
def onTexts (op : StandardOperator) (limit : Nat) (left : Value) (s t : List Char) :
    Checked Value :=
  match op with
  | .add | .concat => sized limit (s ++ t)
  | _ =>
    match op.compare? (s < t) (s = t) (t < s) with
    | some r => .ok (.bool r)
    | none => Value.mismatch "STRING operands" left

/-- The bounds of dimension `d` of a row, or its element number `d`. -/
def onRow (op : StandardOperator) (d : Int64) (operand : Value) : Checked Value := do
  let row ← operand.asRow
  if op = .elem then row.select [d]
  else
    match if 1 ≤ d.toInt then row.dims[(d.toInt - 1).toNat]? else none with
    | some b => return .int (if op = .upb then b.upper else b.lower)
    | none => fault (.indexOutOfBounds d 1 (saturate row.dimensions))

def isRowQuery : StandardOperator → Bool
  | .upb | .lwb | .elem => true
  | _ => false

/-- A dyadic operator on two texts, or on operands that belong to none of its modes. -/
def onOthers (op : StandardOperator) (limit : Nat) (left right : Value) : Checked Value :=
  match left.text?, right.text? with
  | some s, some t => op.onTexts limit left s t
  | _, _ => Value.mismatch "operands of matching modes" left

/-- A dyadic operator.  Strings it makes have at most `limit` characters. -/
def dyadic (op : StandardOperator) (limit : Nat) (left right : Value) : Checked Value :=
  match left, right with
  | .int a, .int b => op.onInts a b
  | .real x, .real y => op.onReals x y
  | .int a, .real y => op.onReals a.toFloat y
  | .real x, .int b =>
    if op = .pow then .ok (.real (realPower x b)) else op.onReals x b.toFloat
  | .bool a, .bool b => op.onBools a b
  | .int n, right =>
    if op.isRowQuery then op.onRow n right
    else
      match op, right.text? with
      | .mul, some text => replicate limit text n
      | _, _ => op.onOthers limit left right
  | left, .int n =>
    match op, left.text? with
    | .mul, some text => replicate limit text n
    | _, _ => op.onOthers limit left right
  | left, right => op.onOthers limit left right

/-- A monadic operator on an operand that is not a name. -/
def monadic (op : StandardOperator) (operand : Value) : Checked Value :=
  match op, operand with
  | .neg, .int n => op.checked (-n.toInt)
  | .neg, .real x => .ok (.real (-x))
  | .plus, .int n => .ok (.int n)
  | .plus, .real x => .ok (.real x)
  | .abs, .int n => op.checked n.toInt.natAbs
  | .abs, .real x => .ok (.real x.abs)
  | .abs, .bool b => .ok (.int (if b then 1 else 0))
  | .abs, .char c => .ok (.int (Int64.ofNat c.toNat))
  | .not, .bool b => .ok (.bool !b)
  | .upb, v => op.onRow 1 v
  | .lwb, v => op.onRow 1 v
  | _, v => Value.mismatch "operand of a monadic operator" v

end StandardOperator

end Algol68
