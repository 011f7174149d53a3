/-
  Subject:   THE DIVISORS of a count in ascending order, found in pairs around its square root.

  * `divisors`: the ascending list; empty for zero.
-/
import DesignSpace.Count

namespace DesignSpace

/-- Trial division upward from `d`. A divisor met before the square root goes to the end of
    `low`, its partner to the front of `high`; both lists meet in the middle. `low` is kept with
    its newest entry first. -/
def divisorPairs (n : Nat) : (fuel : Nat) → (d : Nat) → (low high : List Nat) → List Nat
  | 0, _, low, high => low.reverse ++ high
  | fuel + 1, d, low, high =>
    if d ≤ n / d then
      if n % d = 0 then
        divisorPairs n fuel (d + 1) (d :: low) (if d = n / d then high else n / d :: high)
      else divisorPairs n fuel (d + 1) low high
    else low.reverse ++ high

/-- The positive divisors of `n`, ascending. A candidate is tried only while it is at most the
    root of `n`, so `n` steps are enough. -/
def divisors (n : Nat) : List Nat := divisorPairs n n 1 [] []

example : divisors 12 = [1, 2, 3, 4, 6, 12] := by decide

example : divisors 9 = [1, 3, 9] := by decide

example : divisors 0 = [] := by decide

end DesignSpace
