/-
  Subject:   CLOCK PERIODS in texts: a number of nanoseconds, or a number with a unit of time or of
             frequency.

  * `ClockText.parse?`: number and unit of a text;
  * `clockPeriod`: the period of a JSON value.
-/
import DesignSpace.Target.Basic
import DesignSpace.Json.Value

namespace DesignSpace

/-! ## 1. Number and unit -/

/-- A number with a unit behind it, as written; the number is `digits * 10 ^ -places`. -/
structure ClockText where
  negative : Bool
  digits : Nat
  places : Nat
  unit : List Char
deriving DecidableEq, Repr

namespace ClockText

/-- A character in the form in which units are compared. The long s and the
    sign of the kelvin count as the small letters `s` and `k`. -/
def foldCase (c : Char) : Char :=
  if c = '\u017f' then 's' else if c = '\u212a' then 'k' else c.toLower

/-- The units, as they are compared. -/
def units : List (List Char) :=
  [['p', 's'], ['n', 's'], ['u', 's'], ['k', 'h', 'z'], ['m', 'h', 'z'], ['g', 'h', 'z']]

/-- Digits, with at most one point in front of some of them: all digits, and how many of them
    stand behind the point. -/
def scanNumber (cs : List Char) : Option (List Char × Nat × List Char) :=
  let whole := cs.takeWhile Char.isDigit
  match cs.dropWhile Char.isDigit with
  | '.' :: rest =>
    match rest.takeWhile Char.isDigit with
    | [] => none
    | ds => some (whole ++ ds, ds.length, rest.dropWhile Char.isDigit)
  | rest => if whole.isEmpty then none else some (whole, 0, rest)

/-- The number and the unit of a text. There may be blanks around both, and there may be no
    unit. -/
def parse? (s : String) : Option ClockText :=
  let cs := Text.trimChars s.toList
  let (negative, cs) := match cs with
    | '-' :: rest => (true, rest)
    | cs => (false, cs)
  match scanNumber cs with
  | none => none
  | some (digits, places, rest) =>
    let unit := rest.dropWhile Text.isBlank
    if unit.isEmpty || units.contains (unit.map foldCase) then
      some ⟨negative, Nat.ofDigitChars 10 digits 0, places, unit⟩
    else none

/-- The length in nanoseconds of a positive number of a unit, or of the cycle of a frequency. -/
def inNanoseconds (x : Float) (unit : String) : Option Float :=
  match unit with
  | "" => some x
  | "ps" => some (x / 1000.0)
  | "ns" => some x
  | "us" => some (x * 1000.0)
  | "khz" => some (1.0e6 / x)
  | "mhz" => some (1.0e3 / x)
  | "ghz" => some (1.0 / x)
  | _ => none

end ClockText

/-! ## 2. Periods -/

/-- The period that a text gives. -/
def clockOfText (s : String) : Except TargetError Float :=
  match ClockText.parse? s with
  | none => .error (.invalid "clock_period" (.clockText s))
  | some t =>
    let x := ofDecimal t.digits (-t.places)
    if t.negative || decide (x ≤ 0.0) then .error (.negative "clock_period" s)
    else
      let unit := String.ofList (t.unit.map Char.toLower)
      match ClockText.inNanoseconds x unit with
      | some p => .ok p
      | none => .error (.invalid "clock_period" (.clockUnit unit))

/-- A number as a double. -/
def Json.Number.toFloat : Json.Number → Float
  | natural n => ofCount n
  | negative n => -ofCount n
  | real x => x

/-- The period that a value gives: a number of nanoseconds, or a text. -/
def clockPeriod (v : Json.Value) : Except TargetError Float := do
  let p ← match v with
    | .number n => .ok n.toFloat
    | .text s => clockOfText s
    | v => .error (.invalid "clock_period" (.clockValue v.compact))
  demand (isPeriod p) (.negative "clock_period" (plainFloat p))
  return p

end DesignSpace
