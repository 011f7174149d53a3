/-
  Subject:   AMOUNTS. A double is an amount if it is a number that is not below zero. Sums of
             amounts are amounts, and so are quotients by a positive finite double; no such
             calculation ends in what is no number.

  * `Double.IsAmount`, `Double.IsPositive`: the sorts of doubles;
  * `Double.IsAmount.add`, `Double.IsAmount.div`: the calculations;
  * `Double.isAmount_ofCount`, `Double.isPositive_ofCount`: counts as doubles.
-/
import DesignSpace.Decimal.Binary
import Mathlib

namespace DesignSpace.Double

open Float.Model Float.Model.UnpackedFloat

/-! ## 1. Sorts of doubles -/

/-- Zero of either sign, a positive double, or infinity. -/
def amount : UnpackedFloat → Bool
  | .zero _ => true
  | .finite .positive _ _ _ => true
  | .infinity .positive => true
  | _ => false

/-- A positive double that is finite. -/
def positive : UnpackedFloat → Bool
  | .finite .positive _ _ _ => true
  | _ => false

/-- A number that is not below zero. -/
def IsAmount (x : Float) : Prop := amount x.toModel.unpack = true

/-- A finite number above zero. -/
def IsPositive (x : Float) : Prop := positive x.toModel.unpack = true

theorem amount_cases {f : UnpackedFloat} (h : amount f = true) :
    (∃ s, f = .zero s) ∨ (∃ m e hm, f = .finite .positive m e hm) ∨ f = .infinity .positive := by
  cases f with
  | notANumber => cases h
  | zero s => exact .inl ⟨s, rfl⟩
  | finite s m e hm =>
    cases s with
    | negative => cases h
    | positive => exact .inr (.inl ⟨m, e, hm, rfl⟩)
  | infinity s =>
    cases s with
    | negative => cases h
    | positive => exact .inr (.inr rfl)

theorem positive_cases {f : UnpackedFloat} (h : positive f = true) :
    ∃ m e hm, f = .finite .positive m e hm := by
  cases f with
  | finite s m e hm =>
    cases s with
    | negative => cases h
    | positive => exact ⟨m, e, hm, rfl⟩
  | _ => cases h

theorem IsAmount.isNaN {x : Float} (h : IsAmount x) : x.isNaN = false := by
  have hx : x.isNaN = x.toModel.unpack.isNaN := rfl
  rw [hx]
  obtain ⟨s, hf⟩ | ⟨m, e, hm, hf⟩ | hf := amount_cases h <;> rw [hf] <;> rfl

/-! ## 2. Stored and read back -/

/-- Positive components are read back as an amount: the largest exponent stands with no significand
    but that of infinity. -/
theorem amount_components {e : BitVec 11} {m : BitVec 52} (h : e = -1#11 → m = 0#52) :
    amount (unpack .binary64 (packComponents .binary64 .positive e m)) = true := by
  simp only [UnpackedFloat.unpack, unpackExponent_packComponents, unpackMantissa_packComponents,
    unpackSign_packComponents, Sign.ofBitVec_toBitVec]
  split
  · rename_i he
    rw [if_pos (h he)]
    rfl
  · split
    · split <;> rfl
    · rfl

/-- Positive components are read back as a positive double, unless their exponent is the largest or
    they are those of zero. -/
theorem positive_components {e : BitVec 11} {m : BitVec 52} (h : e ≠ -1#11)
    (hm : e = 0#11 → m ≠ 0#52) :
    positive (unpack .binary64 (packComponents .binary64 .positive e m)) = true := by
  simp only [UnpackedFloat.unpack, unpackExponent_packComponents, unpackMantissa_packComponents,
    unpackSign_packComponents, Sign.ofBitVec_toBitVec]
  rw [if_neg h]
  split
  · rename_i he
    rw [dif_neg (hm he)]
    rfl
  · rfl

theorem biased_eq (e : Int) :
    (e + Format.binary64.exponentBias + Format.binary64.mantissaBitsWithoutImplicit).toNat
      = (e + 1075).toNat := by
  show (e + (1023 : Nat) + (52 : Nat)).toNat = (e + 1075).toNat
  omega

/-- An exponent that is not too large is stored as one that is not the largest. -/
theorem ofNat_ne_last {n : Nat} (h : n + 1 < 2048) : BitVec.ofNat 11 n ≠ -1#11 := by
  intro heq
  have := congrArg BitVec.toNat heq
  simp [BitVec.toNat_ofNat] at this
  omega

/-- An amount that is stored is read back as an amount. -/
theorem amount_pack {f : UnpackedFloat} (h : amount f = true) :
    amount (Float.Model.pack f).unpack = true := by
  show amount (unpack .binary64 (UnpackedFloat.pack .binary64 f)) = true
  obtain ⟨s, rfl⟩ | ⟨m, e, hm, rfl⟩ | rfl := amount_cases h
  · cases s <;> rfl
  · unfold UnpackedFloat.pack
    dsimp only
    rw [biased_eq]
    split
    · exact amount_components fun _ => rfl
    · rename_i hlast
      split
      · exact amount_components fun he => absurd he (ofNat_ne_last (Nat.not_le.mp hlast))
      · exact amount_components fun he => absurd he (by decide)
  · exact amount_components fun _ => rfl

/-- A positive double of moderate exponent that is stored is read back as one. -/
theorem positive_pack {m : Nat} {e : Int} {hm : 0 < m} (hlast : m < 2 ^ 53) (hlow : -1074 ≤ e)
    (hhigh : e ≤ 971) :
    positive (Float.Model.pack (.finite .positive m e hm)).unpack = true := by
  show positive (unpack .binary64 (UnpackedFloat.pack .binary64 _)) = true
  have hbias : (e + 1075).toNat + 1 < 2048 := by omega
  unfold UnpackedFloat.pack
  dsimp only
  rw [biased_eq, if_neg (Nat.not_le.mpr hbias)]
  split
  · refine positive_components (ofNat_ne_last hbias) fun he => ?_
    have := congrArg BitVec.toNat he
    simp [BitVec.toNat_ofNat] at this
    omega
  · rename_i hlog
    have hlog' : m.log2 ≠ 52 := fun h => hlog (by rw [h]; rfl)
    have hlt : m.log2 < 53 := (Nat.log2_lt hm.ne').mpr hlast
    have hsmall : m < 2 ^ 52 := (Nat.log2_lt hm.ne').mp (by omega)
    refine positive_components (by decide) fun _ hz => ?_
    have := congrArg BitVec.toNat hz
    rw [BitVec.toNat_ofNat, Nat.mod_eq_of_lt hsmall] at this
    exact hm.ne' this

/-! ## 3. Rounding -/

theorem shiftRight_mantissa (em : ExtendedMantissa) (k : Nat) :
    (em >>> k).mantissa = em.mantissa / 2 ^ k := by
  show (k.repeat ExtendedMantissa.shiftRightOne em).mantissa = _
  induction k with
  | zero => simp [Nat.repeat]
  | succ k ih =>
    show (k.repeat ExtendedMantissa.shiftRightOne em).mantissa / 2 = _
    rw [ih, Nat.div_div_eq_div_mul, Nat.pow_succ]

theorem le_roundedMantissa (em : ExtendedMantissa) : em.mantissa ≤ em.roundedMantissa := by
  obtain ⟨m, r, s⟩ := em
  cases r <;> cases s <;>
    simp [ExtendedMantissa.roundedMantissa, ExtendedMantissa.accuracy, Accuracy.roundToNearestEven]

theorem roundedMantissa_le (em : ExtendedMantissa) : em.roundedMantissa ≤ em.mantissa + 1 := by
  obtain ⟨m, r, s⟩ := em
  cases r <;> cases s <;>
    simp [ExtendedMantissa.roundedMantissa, ExtendedMantissa.accuracy, Accuracy.roundToNearestEven]
  omega

/-- Shifted to the exponent that the format asks for, a significand keeps its first digit and has
    no more than 53 of them; the exponent grows no further than that takes. -/
theorem shiftToTargetExponent_bounds {m : Nat} {e : Int} (hm : 0 < m) (he : -1074 ≤ e) :
    let r := shiftToTargetExponent .binary64 m e .exact
    0 < r.1.mantissa ∧ r.1.mantissa < 2 ^ 53 ∧ e ≤ r.2 ∧ r.2 ≤ e + m.log2 := by
  intro r
  have htarget : Format.binary64.targetExponent (totalExponent m e)
      = max (m.log2 + 1 + e - 53) (-1074) := rfl
  have hshift : (Format.binary64.targetExponent (totalExponent m e) - e).toNat = m.log2 - 52 := by
    rw [htarget]; omega
  have hr : r.1.mantissa = m / 2 ^ (m.log2 - 52) := by
    show ((_ : ExtendedMantissa) >>> (_ : Nat)).mantissa = _
    rw [shiftRight_mantissa, hshift]
    rfl
  have he' : r.2 = e + (m.log2 - 52 : Nat) := by
    show e + ((_ : Nat) : Int) = _
    rw [hshift]
  have hlow : 2 ^ m.log2 ≤ m := Nat.log2_self_le hm.ne'
  have hhigh : m < 2 ^ (m.log2 + 1) := Nat.lt_log2_self
  refine ⟨?_, ?_, by omega, by omega⟩
  · rw [hr]
    exact Nat.div_pos ((Nat.pow_le_pow_right (by decide) (by omega)).trans hlow)
      (Nat.two_pow_pos _)
  · rw [hr, Nat.div_lt_iff_lt_mul (Nat.two_pow_pos _), ← Nat.pow_add]
    exact hhigh.trans_le (Nat.pow_le_pow_right (by decide) (by omega))

/-- What is rounded as a positive number is an amount. -/
theorem amount_roundWithAccuracy (m : Nat) (e : Int) (a : Accuracy) :
    amount (roundWithAccuracy .binary64 .positive m e a) = true := by
  unfold roundWithAccuracy
  dsimp only
  split <;> rfl

/-- A positive number of moderate exponent is rounded, stored and read back as a positive
    double. -/
theorem positive_roundWithAccuracy {m : Nat} {e : Int} (hm : 0 < m) (he : -1074 ≤ e)
    (hhigh : e + m.log2 ≤ 900) :
    positive (Float.Model.pack (roundWithAccuracy .binary64 .positive m e .exact)).unpack
      = true := by
  obtain ⟨hpos, hlast, hle, hge⟩ := shiftToTargetExponent_bounds hm he
  unfold roundWithAccuracy
  dsimp only
  generalize shiftToTargetExponent .binary64 m e .exact = first at *
  have hround : 0 < first.1.roundedMantissa := hpos.trans_le (le_roundedMantissa _)
  have hround' : first.1.roundedMantissa ≤ 2 ^ 53 := (roundedMantissa_le _).trans hlast
  have hlog : first.1.roundedMantissa.log2 < 54 :=
    (Nat.log2_lt hround.ne').mpr (hround'.trans_lt (by decide))
  obtain ⟨hpos', hlast', hle', hge'⟩ := shiftToTargetExponent_bounds hround (he.trans hle)
  generalize shiftToTargetExponent .binary64 first.1.roundedMantissa first.2 .exact = second at *
  rw [dif_neg hpos'.ne']
  exact positive_pack hlast' (by omega) (by omega)

/-! ## 4. Calculations -/

theorem amount_normalize {m : Int} (hm : 0 ≤ m) (e : Int) (s : Sign) :
    amount (UnpackedFloat.normalize .binary64 m e s) = true := by
  unfold UnpackedFloat.normalize
  split
  · rename_i h
    rw [Int.compare_eq_lt] at h
    omega
  · rfl
  · exact amount_roundWithAccuracy _ _ _

theorem amount_add {f g : UnpackedFloat} (hf : amount f = true) (hg : amount g = true) :
    amount (UnpackedFloat.add .binary64 f g) = true := by
  obtain ⟨s, rfl⟩ | ⟨m, e, hm, rfl⟩ | rfl := amount_cases hf
  · obtain ⟨t, rfl⟩ | ⟨n, e', hn, rfl⟩ | rfl := amount_cases hg
    · cases s <;> cases t <;> rfl
    · rfl
    · rfl
  · obtain ⟨t, rfl⟩ | ⟨n, e', hn, rfl⟩ | rfl := amount_cases hg
    · rfl
    · have hsum := Int.add_nonneg (Int.natCast_nonneg (m <<< (e - min e e').toNat))
        (Int.natCast_nonneg (n <<< (e' - min e e').toNat))
      exact amount_normalize hsum _ _
    · rfl
  · obtain ⟨t, rfl⟩ | ⟨n, e', hn, rfl⟩ | rfl := amount_cases hg <;> rfl

/-- A quotient is no number only if both parts are zero, or both infinite. -/
theorem amount_div {f g : UnpackedFloat} (hf : amount f = true) (hg : positive g = true) :
    amount (UnpackedFloat.div .binary64 f g) = true := by
  obtain ⟨n, e', hn, rfl⟩ := positive_cases hg
  obtain ⟨s, rfl⟩ | ⟨m, e, hm, rfl⟩ | rfl := amount_cases hf
  · rfl
  · exact amount_roundWithAccuracy _ _ _
  · rfl

/-- **The sum of two amounts is an amount.** -/
theorem IsAmount.add {x y : Float} (hx : IsAmount x) (hy : IsAmount y) : IsAmount (x + y) :=
  amount_pack (amount_add hx hy)

/-- **An amount divided by a positive finite double is an amount.** -/
theorem IsAmount.div {x y : Float} (hx : IsAmount x) (hy : IsPositive y) : IsAmount (x / y) :=
  amount_pack (amount_div hx hy)

theorem isAmount_zero : IsAmount 0.0 := rfl

theorem isAmount_negZero : IsAmount (-0.0) := rfl

/-! ## 5. Counts -/

theorem isAmount_ofCount (n : Nat) : IsAmount (ofCount n) :=
  amount_pack (amount_normalize (Int.natCast_nonneg _) _ _)

/-- A positive count is far from every limit of the format. -/
theorem isPositive_ofCount {n : Nat} (hpos : 0 < n) (hn : n ≤ Count.limit) :
    IsPositive (ofCount n) := by
  have hlt : n < 2 ^ 64 := Nat.lt_of_le_of_lt hn (by decide)
  have htoNat : n.toUInt64.toNat = n := Nat.mod_eq_of_lt hlt
  have hlog : n.log2 < 64 := (Nat.log2_lt hpos.ne').mpr hlt
  show positive (Float.Model.pack
    (UnpackedFloat.normalize .binary64 (n.toUInt64.toNat : Int) 0 .positive)).unpack = true
  have hcompare : compare (n : Int) 0 = .gt := Int.compare_eq_gt.mpr (by omega)
  have htarget : Format.binary64.targetExponent (totalExponent n 0)
      = max ((n.log2 : Int) + 1 + 0 - 53) (-1074) := rfl
  rw [htoNat]
  unfold UnpackedFloat.normalize
  rw [hcompare]
  show positive (Float.Model.pack (UnpackedFloat.round .binary64 .positive n 0)).unpack = true
  unfold UnpackedFloat.round decreaseExponent
  dsimp only
  rw [htarget, Nat.shiftLeft_eq]
  set k := ((0 : Int) - max ((n.log2 : Int) + 1 + 0 - 53) (-1074)).toNat with hk
  have hmul : 0 < n * 2 ^ k := Nat.mul_pos hpos (Nat.two_pow_pos k)
  have hlt' : n * 2 ^ k < 2 ^ (64 + k) := by
    rw [Nat.pow_add]
    exact Nat.mul_lt_mul_of_pos_right hlt (Nat.two_pow_pos k)
  have hlog' : (n * 2 ^ k).log2 < 64 + k := (Nat.log2_lt hmul.ne').mpr hlt'
  exact positive_roundWithAccuracy hmul (by omega) (by omega)

end DesignSpace.Double
