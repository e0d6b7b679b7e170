import Algol68.Value.Formula
import Mathlib.Algebra.Order.Ring.Abs

/-! Arithmetic on 64-bit integers against the integers themselves. Each operator gives the exact result
when that fits and overflows when it does not, but for two cases: the remainder of the smallest integer
by `-1`, whose quotient is the one that does not fit, and powers of `0`, `1` and `-1` with an exponent
of more than 32 bits. -/

namespace Algol68

theorem narrow?_eq_some_iff {r : Int} {n : Int64} : narrow? r = some n ↔ n.toInt = r := by
  rw [narrow?]
  constructor
  · intro h
    split at h
    case isTrue fits =>
      cases h
      exact Int64.toInt_ofInt_of_le (by omega) (by omega)
    case isFalse => cases h
  · rintro rfl
    have lower := n.le_toInt
    have upper := n.toInt_lt
    rw [if_pos (by omega), Int64.ofInt_toInt]

theorem narrow?_eq_none_iff {r : Int} : narrow? r = none ↔ ∀ n : Int64, n.toInt ≠ r := by
  rw [Option.eq_none_iff_forall_ne_some]
  exact forall_congr' fun n => not_congr narrow?_eq_some_iff

theorem not_fits {r : Int} (h : 2 ^ 63 < r.natAbs) (n : Int64) : n.toInt ≠ r := by
  have lower := n.le_toInt
  have upper := n.toInt_lt
  omega

namespace StandardOperator

variable {op : StandardOperator} {r : Int}

/-- What an operator gives whose exact result is `r`: the integer `r` if it fits in 64 bits, and
overflow if and only if it does not. -/
def Exact (op : StandardOperator) (outcome : Checked Value) (r : Int) : Prop :=
  (∀ n : Int64, outcome = .ok (.int n) ↔ n.toInt = r) ∧
    (outcome = fault (.integerOverflow op.symbol) ↔ ∀ n : Int64, n.toInt ≠ r)

/-- The remainder of `x` by `y`, which is never negative. -/
def Remainder (x y r : Int) : Prop := 0 ≤ r ∧ r < |y| ∧ y ∣ x - r

theorem exact_checked (op : StandardOperator) (r : Int) : op.Exact (op.checked r) r := by
  cases h : narrow? r with
  | some m =>
    have fits := narrow?_eq_some_iff.mp h
    rw [checked, h]
    refine ⟨fun n => ⟨?_, ?_⟩, ⟨nofun, fun no => absurd fits (no m)⟩⟩
    · intro e
      cases e
      exact fits
    · intro e
      rw [Int64.toInt_inj.mp (e.trans fits.symm)]
  | none =>
    have no := narrow?_eq_none_iff.mp h
    rw [checked, h]
    exact ⟨fun n => ⟨nofun, fun e => absurd e (no n)⟩, ⟨fun _ => no, fun _ => rfl⟩⟩

theorem exact_overflow (h : ∀ n : Int64, n.toInt ≠ r) :
    op.Exact (fault (.integerOverflow op.symbol)) r :=
  ⟨fun n => ⟨nofun, fun e => absurd e (h n)⟩, ⟨fun _ => h, fun _ => rfl⟩⟩

theorem checked_eq_fault {cause : Cause} (h : op.checked r = fault cause) :
    cause = .integerOverflow op.symbol := by
  rw [checked] at h
  split at h
  · cases h
  · cases h
    rfl

/-! ### Division -/

theorem remainder_emod {x y : Int} (hy : y ≠ 0) : Remainder x y (x % y) :=
  ⟨Int.emod_nonneg x hy, Int.emod_lt_abs x hy, Int.dvd_self_sub_emod⟩

theorem Remainder.eq_emod {x y : Int} (h : Remainder x y r) : r = x % y := by
  obtain ⟨nonneg, lt, dvd⟩ := h
  calc
    r = r % |y| := (Int.emod_eq_of_lt nonneg lt).symm
    _ = r % y := Int.emod_abs r y
    _ = x % y := (Int.emod_eq_emod_iff_emod_sub_eq_zero.mpr (Int.emod_eq_zero_of_dvd dvd)).symm

theorem existsUnique_remainder {x y : Int} (hy : y ≠ 0) : ∃! r, Remainder x y r :=
  ⟨x % y, remainder_emod hy, fun _ h => h.eq_emod⟩

/-- The only quotient that does not fit is that of the smallest integer by `-1`. -/
theorem narrow?_ediv_eq_none_iff {a b : Int64} (hb : b ≠ 0) :
    narrow? (a.toInt / b.toInt) = none ↔ a = Int64.minValue ∧ b = -1 := by
  constructor
  · intro h
    have hy : b.toInt ≠ 0 := fun e => hb (Int64.toInt_inj.mp e)
    have size := Int.natAbs_ediv_le_natAbs a.toInt b.toInt
    have division := Int.mul_ediv_add_emod a.toInt b.toInt
    have nonneg := Int.emod_nonneg a.toInt hy
    have lt := Int.emod_lt a.toInt hy
    have lower := a.le_toInt
    have upper := a.toInt_lt
    -- No quotient is larger than its dividend, so that this one can only be the first too large.
    have quotient : a.toInt / b.toInt = 2 ^ 63 := by
      have none : ¬ (-0x8000000000000000 ≤ a.toInt / b.toInt ∧
          a.toInt / b.toInt ≤ 0x7FFFFFFFFFFFFFFF) := fun fits => by
        rw [narrow?, if_pos fits] at h
        cases h
      omega
    rw [quotient] at division
    constructor
    · apply Int64.toInt_inj.mp
      rw [Int64.toInt_minValue]
      omega
    · apply Int64.toInt_inj.mp
      change b.toInt = -1
      omega
  · rintro ⟨rfl, rfl⟩
    decide

theorem mod_exact {a b : Int64} (hb : b ≠ 0) (h : Remainder a.toInt b.toInt r)
    (quotient : ¬ (a = Int64.minValue ∧ b = -1)) : Exact .mod (onInts .mod a b) r := by
  have some : ¬ (narrow? (a.toInt / b.toInt)).isNone := by
    rw [Option.isNone_iff_eq_none, narrow?_ediv_eq_none_iff hb]
    exact quotient
  rw [h.eq_emod]
  simp only [onInts, if_neg hb, if_neg some]
  exact exact_checked .mod _

theorem mod_overflow {a b : Int64} (quotient : a = Int64.minValue ∧ b = -1) :
    onInts .mod a b = fault (.integerOverflow "MOD") := by
  obtain ⟨rfl, rfl⟩ := quotient
  rfl

theorem mod_eq_divisionByZero_iff {a b : Int64} :
    onInts .mod a b = fault .divisionByZero ↔ b = 0 := by
  constructor
  · intro h
    by_contra hb
    simp only [onInts, if_neg hb] at h
    split at h
    · cases h
    · cases checked_eq_fault h
  · rintro rfl
    rfl

theorem over_exact {a b : Int64} (hb : b ≠ 0) :
    Exact .over (onInts .over a b) (a.toInt.tdiv b.toInt) := by
  simp only [onInts, if_neg hb]
  exact exact_checked .over _

theorem over_eq_divisionByZero_iff {a b : Int64} :
    onInts .over a b = fault .divisionByZero ↔ b = 0 := by
  constructor
  · intro h
    by_contra hb
    simp only [onInts, if_neg hb] at h
    cases checked_eq_fault h
  · rintro rfl
    rfl

/-! ### Powers -/

/-- Powers of an integer of at least two in size do not fit from the 64th on. -/
theorem power_not_fits {x : Int} {k : Nat} (hx : 2 ≤ x.natAbs) (hk : 64 ≤ k) (n : Int64) :
    n.toInt ≠ x ^ k := by
  apply not_fits
  rw [Int.natAbs_pow]
  calc
    2 ^ 63 < 2 ^ 64 := by decide
    _ ≤ 2 ^ k := Nat.pow_le_pow_right (by decide) hk
    _ ≤ x.natAbs ^ k := Nat.pow_le_pow_left hx k

/-- For `0`, `1` and `-1` only whether the exponent is zero and whether it is odd matter. -/
theorem power_by_parity {x : Int} {k : Nat} (hx : x.natAbs < 2) (hk : k ≠ 0) :
    x ^ (k % 2 + 2) = x ^ k := by
  obtain rfl | rfl | rfl : x = 0 ∨ x = 1 ∨ x = -1 := by omega
  · rw [zero_pow hk, zero_pow (by omega)]
  · rw [one_pow, one_pow]
  · rw [neg_one_pow_eq_pow_mod_two, neg_one_pow_eq_pow_mod_two k, Nat.add_mod_right, Nat.mod_mod]

theorem intPower_exact {x y : Int} (h : y < 2 ^ 32 ∨ 2 ≤ x.natAbs) :
    op.Exact (op.intPower x y) (x ^ y.toNat) := by
  rw [intPower]
  split
  case isTrue large => exact exact_overflow (power_not_fits (by omega) (by omega))
  case isFalse =>
    split
    case isTrue => exact exact_checked op _
    case isFalse =>
      split
      case isTrue hx => exact exact_overflow (power_not_fits hx (by omega))
      case isFalse hx =>
        rw [← power_by_parity (by omega) (by omega : y.toNat ≠ 0)]
        exact exact_checked op _

theorem intPower_eq_fault {x y : Int} {cause : Cause} (h : op.intPower x y = fault cause) :
    cause = .integerOverflow op.symbol := by
  rw [intPower] at h
  split at h
  · cases h
    rfl
  · split at h
    · exact checked_eq_fault h
    · split at h
      · cases h
        rfl
      · exact checked_eq_fault h

theorem pow_exact {a b : Int64} (nonneg : 0 ≤ b) (h : b.toInt < 2 ^ 32 ∨ 2 ≤ a.toInt.natAbs) :
    Exact .pow (onInts .pow a b) (a.toInt ^ b.toInt.toNat) := by
  simp only [onInts, if_neg (Int64.not_lt.mpr nonneg)]
  exact intPower_exact h

theorem pow_overflow {a b : Int64} (large : 2 ^ 32 ≤ b.toInt) :
    onInts .pow a b = fault (.integerOverflow "**") := by
  have nonneg : ¬ b < 0 := by
    rw [Int64.lt_iff_toInt_lt, Int64.toInt_zero]
    omega
  simp only [onInts, if_neg nonneg, intPower]
  exact if_pos large

theorem pow_eq_negativeExponent_iff {a b : Int64} :
    onInts .pow a b = fault (.negativeExponent b) ↔ b < 0 := by
  constructor
  · intro h
    by_contra hb
    simp only [onInts, if_neg hb] at h
    cases intPower_eq_fault h
  · intro h
    simp only [onInts, if_pos h]

/-- Arithmetic on integers is exact. Sums, differences, products, truncated quotients, negatives and
absolute values are given when they fit in 64 bits, and overflow when they do not. So are remainders
that are not negative and smaller than the divisor, but for the smallest integer by `-1`, which
overflows though its remainder is `0`, and powers, but for those of `0`, `1` and `-1` with an exponent
from `2 ^ 32` on, which overflow though they fit. Division by zero is refused for a zero divisor alone,
a negative exponent for a negative one. -/
theorem arithmetic_exact (limit : Nat) (a b : Int64) :
    Exact .add (dyadic .add limit (.int a) (.int b)) (a.toInt + b.toInt) ∧
    Exact .sub (dyadic .sub limit (.int a) (.int b)) (a.toInt - b.toInt) ∧
    Exact .mul (dyadic .mul limit (.int a) (.int b)) (a.toInt * b.toInt) ∧
    (dyadic .over limit (.int a) (.int b) = fault .divisionByZero ↔ b = 0) ∧
    (b ≠ 0 → Exact .over (dyadic .over limit (.int a) (.int b)) (a.toInt.tdiv b.toInt)) ∧
    (dyadic .mod limit (.int a) (.int b) = fault .divisionByZero ↔ b = 0) ∧
    (b ≠ 0 → (∃! r, Remainder a.toInt b.toInt r) ∧ ∀ r, Remainder a.toInt b.toInt r →
      if a = Int64.minValue ∧ b = -1 then
        dyadic .mod limit (.int a) (.int b) = fault (.integerOverflow "MOD")
      else Exact .mod (dyadic .mod limit (.int a) (.int b)) r) ∧
    (dyadic .pow limit (.int a) (.int b) = fault (.negativeExponent b) ↔ b < 0) ∧
    (0 ≤ b →
      if 2 ^ 32 ≤ b.toInt ∧ |a.toInt| ≤ 1 then
        dyadic .pow limit (.int a) (.int b) = fault (.integerOverflow "**")
      else Exact .pow (dyadic .pow limit (.int a) (.int b)) (a.toInt ^ b.toInt.toNat)) ∧
    Exact .neg (monadic .neg (.int a)) (-a.toInt) ∧
    Exact .abs (monadic .abs (.int a)) |a.toInt| := by
  simp only [dyadic, monadic]
  refine ⟨exact_checked .add _, exact_checked .sub _, exact_checked .mul _,
    over_eq_divisionByZero_iff, over_exact, mod_eq_divisionByZero_iff, ?_,
    pow_eq_negativeExponent_iff, ?_, exact_checked .neg _, ?_⟩
  · intro hb
    have hy : b.toInt ≠ 0 := fun e => hb (Int64.toInt_inj.mp e)
    refine ⟨existsUnique_remainder hy, fun r hr => ?_⟩
    split
    case isTrue h => exact mod_overflow h
    case isFalse h => exact mod_exact hb hr h
  · intro nonneg
    split
    case isTrue h => exact pow_overflow h.1
    case isFalse h =>
      refine pow_exact nonneg ?_
      rw [Int.abs_eq_natAbs] at h
      omega
  · rw [Int.abs_eq_natAbs]
    exact exact_checked .abs _

theorem arithmetic_of_seven_by_two :
    dyadic .over 9 (.int (-7)) (.int 2) = .ok (.int (-3)) ∧
    dyadic .mod 9 (.int (-7)) (.int 2) = .ok (.int 1) ∧
    dyadic .pow 9 (.int (-7)) (.int 2) = .ok (.int 49) := by
  obtain ⟨-, -, -, -, quotient, -, mod, -, pow, -, -⟩ := arithmetic_exact 9 (-7) 2
  refine ⟨((quotient (by decide)).1 (-3)).mpr (by decide), ?_, ?_⟩
  · have remainder := (mod (by decide)).2 1 ⟨by decide, by decide, by decide⟩
    rw [if_neg (by decide)] at remainder
    exact (remainder.1 1).mpr (by decide)
  · have power := pow (by decide)
    rw [if_neg (by decide)] at power
    exact (power.1 49).mpr (by decide)

/-- A remainder and a power that fit in 64 bits, but overflow. -/
theorem arithmetic_inexact :
    (Remainder Int64.minValue.toInt (-1) 0 ∧
      ¬ Exact .mod (dyadic .mod 9 (.int Int64.minValue) (.int (-1))) 0) ∧
    ¬ Exact .pow (dyadic .pow 9 (.int 1) (.int 4294967296)) (1 ^ 4294967296) := by
  refine ⟨⟨⟨le_rfl, by decide, by decide⟩, fun h => ?_⟩, fun h => ?_⟩
  · have given : onInts .mod Int64.minValue (-1) = .ok (.int 0) := (h.1 0).mpr rfl
    rw [mod_overflow ⟨rfl, rfl⟩] at given
    cases given
  · have given : onInts .pow 1 4294967296 = .ok (.int 1) := (h.1 1).mpr (one_pow _).symm
    rw [pow_overflow (by decide)] at given
    cases given

end StandardOperator

end Algol68
