/-
  Subject:   COUNTS. Cycles, hardware resources, array extents and loop trips are natural numbers
             up to `Count.limit`; arithmetic that would pass the limit stays at it.

  * `Count.add`, `Count.mul`, `Count.sum`, `Count.product`: arithmetic that stops at the limit;
  * `Count.ceilDiv`: quotient rounded up;
  * `Count.clamp`: a number moved into a closed range.
-/

namespace DesignSpace

namespace Count

/-! ## 1. Sums and products -/

/-- The largest count, `2 ^ 64 - 1`. -/
def limit : Nat := 18446744073709551615

/-- Addition that stops at the limit. -/
def add (a b : Nat) : Nat := min (a + b) limit

/-- Multiplication that stops at the limit. -/
def mul (a b : Nat) : Nat := min (a * b) limit

theorem add_le_limit (a b : Nat) : add a b ≤ limit := Nat.min_le_right _ _

theorem mul_le_limit (a b : Nat) : mul a b ≤ limit := Nat.min_le_right _ _

theorem add_comm (a b : Nat) : add a b = add b a := by
  unfold add; rw [Nat.add_comm]

theorem mul_comm (a b : Nat) : mul a b = mul b a := by
  unfold mul; rw [Nat.mul_comm]

theorem add_assoc (a b c : Nat) : add (add a b) c = add a (add b c) := by
  unfold add limit; omega

/-- The sum of a list, stopping at the limit. -/
def sum (xs : List Nat) : Nat := xs.foldl add 0

/-- The product of a list, stopping at the limit. -/
def product (xs : List Nat) : Nat := xs.foldl mul 1

/-! ## 2. Quotients and ranges -/

/-- The least `q` with `a ≤ q * b`; for `b = 0` the dividend itself. -/
def ceilDiv (a b : Nat) : Nat :=
  if b = 0 then a else a / b + (if a % b = 0 then 0 else 1)

theorem le_ceilDiv_mul (a : Nat) {b : Nat} (hb : b ≠ 0) : a ≤ ceilDiv a b * b := by
  have h := Nat.div_add_mod' a b
  have hlt := Nat.mod_lt a (Nat.pos_of_ne_zero hb)
  unfold ceilDiv
  split
  · contradiction
  · split
    · rw [Nat.add_zero]; omega
    · rw [Nat.add_mul]; omega

/-- `x` moved into the range from `low` to `high`. -/
def clamp (low high x : Nat) : Nat := min (max x low) high

end Count

end DesignSpace
