/-!
Integers of 64 bits.  Arithmetic is done on unbounded integers; a result that does not fit is
either refused or replaced by the nearest one that fits.
-/

namespace Algol68

/-- The integer in 64 bits, if it fits. -/
def narrow? (n : Int) : Option Int64 :=
  if -0x8000000000000000 ≤ n ∧ n ≤ 0x7FFFFFFFFFFFFFFF then some (Int64.ofInt n) else none

/-- The integer nearest to `n` among those that fit in 64 bits. -/
def saturate (n : Int) : Int64 :=
  Int64.ofInt (max (-0x8000000000000000) (min 0x7FFFFFFFFFFFFFFF n))

/-- The largest count in 64 bits. -/
def maxCount : Nat := 0xFFFFFFFFFFFFFFFF

end Algol68
