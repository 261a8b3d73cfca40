import Mathlib.Algebra.Order.Ring.Int

/-!
# `core/util/overflow.h` and `xla/overflow_util.h`

A negative result says that the product does not fit into an `int64`.
-/

namespace TfReading.Util

def toInt64 (n : Int) : Int := Int.bmod n (2 ^ 64)

def toInt32 (n : Int) : Int := Int.bmod n (2 ^ 32)

/-- The product in `uint64`, with a division to see whether it has wrapped around.  The division
is left out for small factors. -/
def multiplyUnsigned (x y : Nat) : Int :=
  if (x ||| y) >>> 32 ≠ 0 ∧ x ≠ 0 ∧ x * y % 2 ^ 64 / x ≠ y then -1
  else toInt64 ((x * y % 2 ^ 64 : Nat) : Int)

def multiplyWithoutOverflow (x y : Int) : Int :=
  if x < 0 then -1
  else if y < 0 then -1
  else if x = 0 then 0
  else multiplyUnsigned x.toNat y.toNat

theorem toInt64_of_lt {n : Int} (hn : -2 ^ 63 ≤ n) (hlt : n < 2 ^ 63) : toInt64 n = n := by
  rw [toInt64, Int.bmod_def]
  omega

theorem toInt64_neg {n : Nat} (hn : 2 ^ 63 ≤ n) (hlt : n < 2 ^ 64) : toInt64 n < 0 := by
  rw [toInt64, Int.bmod_def]
  omega

theorem toInt32_of_lt {n : Int} (hn : 0 ≤ n) (hlt : n < 2 ^ 31) : toInt32 n = n := by
  rw [toInt32, Int.bmod_def]
  omega

theorem toInt32_lt (n : Int) : toInt32 n < 2 ^ 31 := by
  rw [toInt32, Int.bmod_def]
  omega

/-- Factors that skip the division have a product of at most 64 bits. -/
theorem mul_lt_of_or {x y : Nat} (h : (x ||| y) >>> 32 = 0) : x * y < 2 ^ 64 := by
  rw [Nat.shiftRight_eq_div_pow, Nat.div_eq_zero_iff] at h
  have hor : x ||| y < 2 ^ 32 := h.resolve_left (by decide)
  have hx : x < 2 ^ 32 := Nat.lt_of_le_of_lt Nat.left_le_or hor
  have hy : y < 2 ^ 32 := Nat.lt_of_le_of_lt Nat.right_le_or hor
  calc x * y < 2 ^ 32 * 2 ^ 32 := Nat.mul_lt_mul'' hx hy
    _ = 2 ^ 64 := by decide

/-- Multiplying by a nonzero number and dividing by it again tells whether 64 bits suffice. -/
theorem wrapped_div_eq_iff {x y : Nat} (hx : x ≠ 0) :
    x * y % 2 ^ 64 / x = y ↔ x * y < 2 ^ 64 := by
  have hpos : 0 < x := Nat.pos_of_ne_zero hx
  constructor
  · intro h
    by_contra hge
    have hle : x * y % 2 ^ 64 < x * y :=
      Nat.lt_of_lt_of_le (Nat.mod_lt _ (Nat.two_pow_pos 64)) (Nat.not_lt.mp hge)
    have hlt := Nat.div_lt_of_lt_mul hle
    omega
  · intro h
    rw [Nat.mod_eq_of_lt h, Nat.mul_div_cancel_left y hpos]

theorem multiplyUnsigned_of_lt {x y : Nat} (h : x * y < 2 ^ 63) :
    multiplyUnsigned x y = (x * y : Nat) := by
  have h64 : x * y < 2 ^ 64 := by omega
  rw [multiplyUnsigned, if_neg, Nat.mod_eq_of_lt h64]
  · exact toInt64_of_lt (by omega) (by omega)
  · intro hc
    exact hc.2.2 ((wrapped_div_eq_iff hc.2.1).mpr h64)

theorem multiplyUnsigned_neg {x y : Nat} (h : 2 ^ 63 ≤ x * y) : multiplyUnsigned x y < 0 := by
  have hx : x ≠ 0 := by
    intro hx
    rw [hx, Nat.zero_mul] at h
    omega
  rw [multiplyUnsigned]
  split
  · decide
  next hc =>
    have h64 : x * y < 2 ^ 64 := by
      by_cases hor : (x ||| y) >>> 32 = 0
      · exact mul_lt_of_or hor
      · by_contra hge
        exact hc ⟨hor, hx, fun heq => hge ((wrapped_div_eq_iff hx).mp heq)⟩
    rw [Nat.mod_eq_of_lt h64]
    exact toInt64_neg h h64

/-- The product of two sizes, or a negative number if it does not fit. -/
theorem multiplyWithoutOverflow_natCast (x y : Nat) :
    multiplyWithoutOverflow x y = multiplyUnsigned x y := by
  rw [multiplyWithoutOverflow, if_neg (by omega), if_neg (by omega)]
  split
  next hx =>
    have hx : x = 0 := by omega
    rw [hx, multiplyUnsigned_of_lt (by omega), Nat.zero_mul]
    rfl
  · rfl

theorem multiplyWithoutOverflow_of_lt {x y : Int} (hx : 0 ≤ x) (hy : 0 ≤ y)
    (h : x * y < 2 ^ 63) : multiplyWithoutOverflow x y = x * y := by
  lift x to Nat using hx
  lift y to Nat using hy
  rw [multiplyWithoutOverflow_natCast, multiplyUnsigned_of_lt (by exact_mod_cast h),
    Int.natCast_mul]

theorem multiplyWithoutOverflow_neg {x y : Int} (hx : 0 ≤ x) (hy : 0 ≤ y)
    (h : 2 ^ 63 ≤ x * y) : multiplyWithoutOverflow x y < 0 := by
  lift x to Nat using hx
  lift y to Nat using hy
  rw [multiplyWithoutOverflow_natCast]
  exact multiplyUnsigned_neg (by exact_mod_cast h)

end TfReading.Util
