/-
  Subject:   DECIMALS IN DOUBLE ARITHMETIC. The digits of a number are gathered into a count as far
             as they fit; the count is rounded to a double, and the double is multiplied or divided
             by a power of ten and rounded again. What comes out lies within a few units in the last
             place of the number, and it need not be the double nearest to it.

  * `gather`: digits put behind a count, and the digits for which there was no room;
  * `scaled`: a count times a power of ten;
  * `gather_le_limit`: the count stays a count.
-/
import DesignSpace.Decimal.Binary

namespace DesignSpace

/-! ## 1. Digits into a count -/

/-- Digits put behind a count, one after the other while what comes out is still a count; the
    count, and the digits from the first one on that did not fit. -/
def gather : (n : Nat) → List Char → Nat × List Char
  | n, [] => (n, [])
  | n, c :: cs =>
    let next := 10 * n + (c.toNat - '0'.toNat)
    if next ≤ Count.limit then gather next cs else (n, c :: cs)

theorem gather_le_limit {n : Nat} (h : n ≤ Count.limit) (cs : List Char) :
    (gather n cs).1 ≤ Count.limit := by
  induction cs generalizing n with
  | nil => exact h
  | cons c cs ih =>
    simp only [gather]
    split
    · next hc => exact ih hc
    · exact h

/-! ## 2. A count times a power of ten -/

/-- The largest power of ten that is a double. -/
def topPower : Nat := 308

/-- A double divided by a power of ten, by the largest one again and again while the power is
    larger. Of a count nothing is left after the second time. -/
def dividedBy : (rounds : Nat) → Float → (power : Nat) → Float
  | 0, _, _ => 0.0
  | rounds + 1, x, power =>
    if power ≤ topPower then x / ofDecimal 1 power
    else dividedBy rounds (x / ofDecimal 1 topPower) (power - topPower)

/-- The double of a count, times a power of ten. A number too large is infinite. -/
def scaled (n : Nat) (power : Int) : Float :=
  if n = 0 then 0.0
  else if power < 0 then dividedBy 3 (ofCount n) power.natAbs
  else if power ≤ topPower then ofCount n * ofDecimal 1 power
  else 1.0 / 0.0

example : (scaled 25 (-1) == 2.5) = true := by decide +kernel

example : (scaled 9532861396415693 (-3) == 9532861396415.691) = true := by decide +kernel

end DesignSpace
