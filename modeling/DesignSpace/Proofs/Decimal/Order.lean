/-
  Subject:   THE ORDER OF DOUBLES. Each double that is a number has a place in a linear order, and
             one is less than another exactly if its place is lower. The two zeros share a place.

  * `Double.Place`, `Double.placeOf`: infinities outside, then finite doubles by exponent and
    significand, zero in the middle;
  * `Double.lt_iff`: **numbers are compared by their places.**
-/
import Mathlib

namespace DesignSpace.Double

open Float.Model

/-! ## 1. Places -/

/-- A place: what sort of double stands there, then exponent and significand, each with its
    sign. -/
abbrev Place := ℤ ×ₗ ℤ ×ₗ ℤ

/-- The place of a double that is taken apart; what is no number has that of zero. -/
def placeOf : UnpackedFloat → Place
  | .infinity .negative => toLex (-2, toLex (0, 0))
  | .finite .negative m e _ => toLex (-1, toLex (-e, -m))
  | .zero _ => toLex (0, toLex (0, 0))
  | .notANumber => toLex (0, toLex (0, 0))
  | .finite .positive m e _ => toLex (1, toLex (e, m))
  | .infinity .positive => toLex (2, toLex (0, 0))

/-- The place of a double. -/
def place (x : Float) : Place := placeOf x.toModel.unpack

/-! ## 2. Comparisons -/

/-- Exponents come before significands. -/
theorem then_eq_lt_iff {e e' : ℤ} {m m' : ℕ} :
    (compare e e').then (compare m m') = .lt ↔ toLex (e, (m : ℤ)) < toLex (e', (m' : ℤ)) := by
  rw [Ordering.then_eq_lt, compare_lt_iff_lt, compare_eq_iff_eq, compare_lt_iff_lt,
    Prod.Lex.toLex_lt_toLex, Int.ofNat_lt]

/-- Below zero, what is nearer to it comes later. -/
theorem then_eq_gt_iff {e e' : ℤ} {m m' : ℕ} :
    (compare e e').then (compare m m') = .gt ↔ toLex (-e, -(m : ℤ)) < toLex (-e', -(m' : ℤ)) := by
  rw [Ordering.then_eq_gt, compare_gt_iff_gt, compare_eq_iff_eq, compare_gt_iff_gt,
    Prod.Lex.toLex_lt_toLex]
  simp

/-- Doubles of different sorts are compared by their sorts alone. -/
theorem toLex_lt_of_ne {a b : ℤ} {p q : ℤ ×ₗ ℤ} (h : a ≠ b) :
    toLex (a, p) < toLex (b, q) ↔ a < b := by
  rw [Prod.Lex.toLex_lt_toLex]
  exact ⟨fun hlt => hlt.resolve_right fun heq => h heq.1, .inl⟩

/-- Doubles of one sort are compared by what is left of their places. -/
theorem toLex_lt_iff_right {a : ℤ} {p q : ℤ ×ₗ ℤ} : toLex (a, p) < toLex (a, q) ↔ p < q := by
  rw [Prod.Lex.toLex_lt_toLex]
  simp

/-- Doubles that are taken apart and are numbers are compared by their places. -/
theorem lt_unpacked_iff {x y : UnpackedFloat} (hx : x.isNaN = false) (hy : y.isNaN = false) :
    x.lt y = true ↔ placeOf x < placeOf y := by
  have hlt : x.lt y = true ↔ x.compare y = some .lt := by
    unfold UnpackedFloat.lt
    rw [beq_iff_eq]
  rw [hlt]
  cases x with
  | notANumber => cases hx
  | infinity s =>
      cases y with
      | notANumber => cases hy
      | infinity s' => cases s <;> cases s' <;> decide
      | zero s' => cases s <;> cases s' <;> decide
      | finite s' m e _ =>
          cases s <;> cases s' <;> simp [UnpackedFloat.compare, placeOf, toLex_lt_of_ne]
  | zero s =>
      cases y with
      | notANumber => cases hy
      | infinity s' => cases s <;> cases s' <;> decide
      | zero s' => cases s <;> cases s' <;> decide
      | finite s' m e _ =>
          cases s' <;> simp [UnpackedFloat.compare, placeOf, toLex_lt_of_ne]
  | finite s m e _ =>
      cases y with
      | notANumber => cases hy
      | infinity s' =>
          cases s <;> cases s' <;> simp [UnpackedFloat.compare, placeOf, toLex_lt_of_ne]
      | zero s' =>
          cases s <;> simp [UnpackedFloat.compare, placeOf, toLex_lt_of_ne]
      | finite s' m' e' _ =>
          cases s <;> cases s'
          case negative.negative =>
            simp [UnpackedFloat.compare, placeOf, toLex_lt_iff_right, then_eq_gt_iff]
          case positive.positive =>
            simp [UnpackedFloat.compare, placeOf, toLex_lt_iff_right, then_eq_lt_iff]
          all_goals simp [UnpackedFloat.compare, placeOf, toLex_lt_of_ne]

/-- **Numbers are compared by their places.** -/
theorem lt_iff {x y : Float} (hx : x.isNaN = false) (hy : y.isNaN = false) :
    x < y ↔ place x < place y := by
  have hlt : x < y ↔ x.toModel.unpack.lt y.toModel.unpack = true := decide_eq_true_iff
  rw [hlt]
  exact lt_unpacked_iff hx hy

end DesignSpace.Double
