/-
  Subject:   DOUBLES AS EXACT NUMBERS. A finite double is `± significand * 2 ^ exponent`; what is
             written of it is decided in natural numbers, never in floating point.

  * `Binary.ofFloat?`: the exact value of a finite double;
  * `ofDecimal`: the double nearest to `digits * 10 ^ exponent`;
  * `ceilCount`: the least count not below a double.
-/
import DesignSpace.Count

namespace DesignSpace

/-! ## 1. The exact value -/

/-- A power of two. -/
def twoPow (n : Nat) : Nat := Nat.pow 2 n

/-- A power of ten. -/
def tenPow (n : Nat) : Nat := Nat.pow 10 n

/-- The number `± significand * 2 ^ exponent`. `narrow` says that the next smaller double is only
    half as far away as the next larger one. -/
structure Binary where
  negative : Bool
  significand : Nat
  exponent : Int
  narrow : Bool
deriving DecidableEq, Repr

namespace Binary

/-- The value of a double; none for the infinities and for a result that is no number. -/
def ofFloat? (x : Float) : Option Binary :=
  let bits := x.toBits.toNat
  let negative := decide (twoPow 63 ≤ bits)
  let field : Nat := bits / twoPow 52 % twoPow 11
  let low : Nat := bits % twoPow 52
  if field = 2047 then none
  else if field = 0 then some ⟨negative, low, -1074, false⟩
  else some ⟨negative, twoPow 52 + low, (field : Int) - 1075, low == 0 && decide (1 < field)⟩

/-- The size of the value as a fraction: numerator and denominator. -/
def fraction (b : Binary) : Nat × Nat :=
  (b.significand * twoPow b.exponent.toNat, twoPow (-b.exponent).toNat)

end Binary

/-! ## 2. From decimal, and to a count -/

/-- The double nearest to `digits * 10 ^ exponent`. A number beyond every double is infinite, and
    one below half the least positive double is zero. -/
def ofDecimal (digits : Nat) (exponent : Int) : Float :=
  let size := ((Nat.toDigits 10 digits).length : Int) + exponent
  if digits = 0 then 0.0
  else if 310 < size then 1.0 / 0.0
  else if size < -330 then 0.0
  else Float.ofScientific digits (decide (exponent < 0)) exponent.natAbs

/-- The whole part of a double, moved into the range of counts. -/
def wholeCount (x : Float) : Nat := x.toUInt64.toNat

/-- The double nearest to a count. -/
def ofCount (n : Nat) : Float := n.toUInt64.toFloat

/-- The least count not below a double; zero for a negative double, and the limit for one that no
    count reaches. -/
def ceilCount (x : Float) : Nat :=
  let whole := wholeCount x
  if ofCount whole < x then Count.add whole 1 else whole

/-- Whether a double that is not negative has no fractional part. -/
def isWhole (x : Float) : Bool :=
  x.isFinite && (ofCount (wholeCount x) == x || decide (ofCount Count.limit ≤ x))

end DesignSpace
