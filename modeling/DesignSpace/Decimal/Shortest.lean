/-
  Subject:   THE SHORTEST DECIMAL of a double: the fewest digits that still read back as the same
             double, and of these the nearest to it.

  * `Binary.shortest`: digits and power of ten;
  * `Binary.plain`: written out without an exponent;
  * `Binary.scientific`: written out near one, else with an exponent, and always told apart from
    a whole number;
  * `Binary.fixed`: a given number of decimal places, a half going to the even neighbour.
-/
import DesignSpace.Decimal.Binary

namespace DesignSpace

/-- The number `digits * 10 ^ exponent`. -/
structure Decimal where
  digits : Nat
  exponent : Int
deriving DecidableEq, Repr

/-- Where a value goes that lies exactly between two decimals of the same length. -/
inductive Tie where
  /-- To the larger one. -/
  | up
  /-- To the one with an even last digit. -/
  | even
deriving DecidableEq, Repr

/-! ## 1. The search over decimal grids -/

/-- Moves trailing zeros of the digits into the exponent. At most `fuel` of them. -/
def Decimal.strip : (fuel : Nat) → Decimal → Decimal
  | 0, d => d
  | fuel + 1, d =>
    if d.digits ≠ 0 ∧ d.digits % 10 = 0 then strip fuel ⟨d.digits / 10, d.exponent + 1⟩ else d

namespace Binary

/-- The point of the grid `10 ^ k` that is nearest to the value, if it lies in the interval of
    numbers that round to the value. The interval holds its ends when the significand is even.
    All numbers are in quarters of the unit of the significand. -/
def onGrid (tie : Tie) (b : Binary) (k : Int) : Option Nat :=
  let scale := tenPow (-k).toNat * twoPow b.exponent.toNat
  let unit := 4 * (tenPow k.toNat * twoPow (-b.exponent).toNat)
  let value := 4 * b.significand * scale
  let low := (4 * b.significand - (if b.narrow then 1 else 2)) * scale
  let high := (4 * b.significand + 2) * scale
  let inside (d : Nat) : Bool :=
    if b.significand % 2 = 0 then decide (low ≤ d * unit) && decide (d * unit ≤ high)
    else decide (low < d * unit) && decide (d * unit < high)
  let below := value / unit
  let rest := 2 * (value % unit)
  let nearBelow := decide (rest < unit) ||
    (rest == unit && tie == .even && below % 2 == 0)
  match inside below, inside (below + 1) with
  | true, true => some (if nearBelow then below else below + 1)
  | true, false => some below
  | false, true => some (below + 1)
  | false, false => none

/-- The first grid at or below `10 ^ k` with a point in the interval. -/
def firstGrid (tie : Tie) (b : Binary) : (fuel : Nat) → (k : Int) → Decimal
  | 0, k => ⟨0, k⟩
  | fuel + 1, k =>
    match onGrid tie b k with
    | some d => ⟨d, k⟩
    | none => firstGrid tie b fuel (k - 1)

/-- The shortest decimal of a value. Seventeen digits tell all doubles apart, so the first point
    lies on one of the eighteen grids below the size of the value. -/
def shortest (tie : Tie) (b : Binary) : Decimal :=
  if b.significand = 0 then ⟨0, 0⟩
  else
    let (num, den) := b.fraction
    let top := ((Nat.toDigits 10 num).length : Int) - ((Nat.toDigits 10 den).length : Int)
    (firstGrid tie b 19 top).strip 20

/-! ## 2. Written forms -/

private def signed (b : Binary) (body : List Char) : String :=
  String.ofList (if b.negative then '-' :: body else body)

/-- Digits with a decimal point after the first `p` of them; zeros fill up on either side. -/
def placed (digits : List Char) (p : Int) : List Char :=
  if p ≤ 0 then '0' :: '.' :: (List.replicate (-p).toNat '0' ++ digits)
  else if p < digits.length then digits.take p.toNat ++ '.' :: digits.drop p.toNat
  else digits ++ List.replicate (p.toNat - digits.length) '0'

/-- The shortest decimal without an exponent: `10`, `-0.5`, `1000000000000000000000`. -/
def plain (b : Binary) : String :=
  let d := b.shortest .up
  let digits := Nat.toDigits 10 d.digits
  signed b (if d.digits = 0 then ['0'] else placed digits (digits.length + d.exponent))

/-- The shortest decimal, with a signed exponent from `10 ^ 16` on and below `10 ^ -5`. A whole
    number keeps one decimal place: `10.0`, `0.00001`, `1e+16`, `2.5e-7`. -/
def scientific (b : Binary) : String :=
  let d := b.shortest .even
  let digits := Nat.toDigits 10 d.digits
  let p : Int := digits.length + d.exponent
  if d.digits = 0 then signed b ['0', '.', '0']
  else if 0 ≤ d.exponent ∧ p ≤ 16 then signed b (placed digits p ++ ['.', '0'])
  else if -5 < p ∧ p ≤ 16 then signed b (placed digits p)
  else
    let power := p - 1
    let tail := (if power < 0 then '-' else '+') :: Nat.toDigits 10 power.natAbs
    signed b (digits.take 1 ++ (if digits.length = 1 then [] else '.' :: digits.drop 1) ++
      'e' :: tail)

/-- `num / den` rounded to the nearest whole number, a half to the even one. -/
def roundEven (num den : Nat) : Nat :=
  let q := num / den
  let r := 2 * (num % den)
  if r < den then q else if den < r then q + 1 else q + q % 2

/-- A value with a fixed number of decimal places, at least one. -/
def fixed (b : Binary) (places : Nat) : String :=
  let (num, den) := b.fraction
  let units := Nat.toDigits 10 (roundEven (num * tenPow places) den)
  let padded := List.replicate (places + 1 - units.length) '0' ++ units
  signed b (placed padded (padded.length - places : Nat))

end Binary

/-! ## 3. Written forms of doubles -/

/-- A double without an exponent; the infinities and a result that is no number by name. -/
def plainFloat (x : Float) : String :=
  match Binary.ofFloat? x with
  | some b => b.plain
  | none => if x.isNaN then "NaN" else if x < 0.0 then "-inf" else "inf"

/-- A finite double in the form that tells it apart from a whole number. -/
def scientificFloat (x : Float) : String :=
  match Binary.ofFloat? x with
  | some b => b.scientific
  | none => "null"

/-- A finite double with two decimal places. -/
def fixedFloat (x : Float) : String :=
  match Binary.ofFloat? x with
  | some b => b.fixed 2
  | none => plainFloat x

example : plainFloat 10.0 = "10" ∧ plainFloat (-0.5) = "-0.5" := by decide +kernel

example : scientificFloat 10.0 = "10.0" ∧ scientificFloat 1e-7 = "1e-7" := by decide +kernel

example : scientificFloat 1.5e16 = "1.5e+16" ∧ scientificFloat 1e-5 = "0.00001" := by decide +kernel

example : fixedFloat 2.125 = "2.12" ∧ fixedFloat 0.999 = "1.00" := by decide +kernel

end DesignSpace
