/-!
The shortest decimal of a binary floating-point number: the fewest digits that read back as the
number, the nearest to it among those, and the larger of two equally near ones.  All arithmetic is
on natural numbers over one common denominator.
-/

namespace Algol68.Decimal

/-- A positive number `value / unit` and the open or closed interval `low / unit` to
`high / unit` of the reals that round to it. -/
structure Rounding where
  value : Nat
  low : Nat
  high : Nat
  unit : Nat
  closed : Bool

namespace Rounding

/-- Whether `n / unit` rounds to the number. -/
def admits (r : Rounding) (n : Nat) : Bool :=
  if r.closed then r.low ≤ n && n ≤ r.high else r.low < n && n < r.high

/-- The number `significand * 2 ^ exponent`.  The gap below it is half as wide as the gap above
when `narrow`. -/
def ofBinary (significand : Nat) (exponent : Int) (narrow : Bool) : Rounding :=
  let scale := Nat.pow 2 exponent.toNat
  let value := 4 * significand
  { value := value * scale
    low := (value - if narrow then 1 else 2) * scale
    high := (value + 2) * scale
    unit := 4 * Nat.pow 2 (-exponent).toNat
    closed := significand % 2 == 0 }

/-- The power of ten that the leading digit of the number counts. -/
def magnitude (r : Rounding) : Int :=
  if r.unit ≤ r.value then ((Nat.toDigits 10 (r.value / r.unit)).length : Int) - 1
  else
    let inverse := (r.unit + r.value - 1) / r.value
    0 - (Nat.toDigits 10 (inverse - 1)).length

/-- The multiple of `10 ^ power` that rounds to the number, if one does: of the two neighbours of
the number the nearer, of two equally near ones the larger. -/
def onGrid? (r : Rounding) (power : Int) : Option Nat :=
  let up := Nat.pow 10 (-power).toNat
  let scaled : Rounding := { r with value := r.value * up, low := r.low * up, high := r.high * up }
  let step := r.unit * Nat.pow 10 power.toNat
  let below := scaled.value / step
  let left := scaled.value - below * step
  match scaled.admits (below * step), scaled.admits ((below + 1) * step) with
  | true, false => some below
  | false, true => some (below + 1)
  | true, true => some (if 2 * left < step then below else below + 1)
  | false, false => none

/-- The first grid with a hit, from `power` downwards. -/
def search (r : Rounding) : (tries : Nat) → (power : Int) → Nat × Int
  | 0, power => (r.value / r.unit, power)
  | tries + 1, power =>
    match r.onGrid? power with
    | some digits => (digits, power)
    | none => r.search tries (power - 1)

/-- Digits and power of ten of the shortest decimal.  Seventeen digits always suffice. -/
def shortest (r : Rounding) : Nat × Int := r.search 18 r.magnitude

end Rounding

/-- Digits and power of ten in positional notation, without an exponent. -/
def positional (digits : Nat) (power : Int) : String :=
  let text := Nat.toDigits 10 digits
  if 0 ≤ power then String.ofList (text ++ List.replicate power.toNat '0')
  else
    let places := (-power).toNat
    let padded := List.replicate (places + 1 - text.length) '0' ++ text
    let whole := padded.take (padded.length - places)
    let fraction := padded.drop (padded.length - places)
    let kept := (fraction.reverse.dropWhile (· == '0')).reverse
    String.ofList (if kept.isEmpty then whole else whole ++ '.' :: kept)

/-- The significand bit that is not stored. -/
def hidden : Nat := 0x10000000000000

/-- The text of a real number: its shortest decimal in positional notation.  A whole number has
no point, zero keeps its sign. -/
def ofReal (x : Float) : String :=
  let bits := x.toBits.toNat
  let sign := if bits / 0x8000000000000000 = 1 then "-" else ""
  let exponent : Nat := bits / hidden % 0x800
  let fraction := bits % hidden
  if exponent = 2047 then
    if fraction = 0 then sign ++ "inf" else "NaN"
  else if exponent = 0 ∧ fraction = 0 then sign ++ "0"
  else
    let r :=
      if exponent = 0 then Rounding.ofBinary fraction (-1074) false
      else Rounding.ofBinary (hidden + fraction) (exponent - 1075) (fraction = 0 && 1 < exponent)
    let (digits, power) := r.shortest
    sign ++ positional digits power

end Algol68.Decimal
