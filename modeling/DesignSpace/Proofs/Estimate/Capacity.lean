/-
  Subject:   WHAT THE BANKS OF AN ARRAY CAN HOLD. The bits of a part are counted up to the limit, so
             no part is given more banks than it takes for that many bits. Up to there the banks
             hold the elements; an array that needs more is given too few.

  * `partBanks`, `fullPart`: the banks of one part, and the most that a part is given;
  * `partBanks_le`, `le_partBanks`: **one part** holds its bits, as far as the most banks do;
  * `le_parts_mul`: the parts together have room for all elements;
  * `capacity_storageElements_iff`: **for which arrays the banks suffice**, in exact arithmetic;
  * `capacity_exceeded`: an array for which they do not.
-/
import DesignSpace.Proofs.Estimate.Footprint

namespace DesignSpace

/-! ## 1. One part -/

/-- The banks of a part with a number of bits. -/
def partBanks (bits : Nat) : Nat := max (Count.ceilDiv (min bits Count.limit) bankBits) 1

/-- The most banks that a part is given. -/
def fullPart : Nat := partBanks Count.limit

example : fullPart = 1000799917193444 := by decide

theorem bankBits_ne_zero : bankBits ≠ 0 := by decide

variable {bits : Nat}

theorem partBanks_of_limit_le (h : Count.limit ≤ bits) : partBanks bits = fullPart := by
  rw [fullPart, partBanks, partBanks, Nat.min_eq_right h, Nat.min_self]

theorem partBanks_le (bits : Nat) : partBanks bits ≤ fullPart := by
  have hbits : min bits Count.limit ≤ min Count.limit Count.limit := by omega
  have hbanks := Count.ceilDiv_mono hbits bankBits
  rw [fullPart, partBanks, partBanks]
  omega

/-- **A part holds its bits**, unless these are more than the most banks hold. -/
theorem le_partBanks (h : bits ≤ fullPart * bankBits) : bits ≤ partBanks bits * bankBits := by
  rcases Nat.le_total Count.limit bits with hfull | hlow
  · rw [partBanks_of_limit_le hfull]
    exact h
  · calc bits ≤ Count.ceilDiv bits bankBits * bankBits := Count.le_ceilDiv_mul bits bankBits_ne_zero
      _ ≤ max (Count.ceilDiv bits bankBits) 1 * bankBits :=
        Nat.mul_le_mul_right _ (Nat.le_max_left _ _)
      _ = partBanks bits * bankBits := by rw [partBanks, Nat.min_eq_left hlow]

/-! ## 2. All parts -/

theorem storageElements_eq_parts (elements bits partition : Nat) :
    storageElements elements bits partition =
      min (max partition 1 * partBanks (Count.ceilDiv elements (max partition 1) * bits))
        Count.limit := rfl

/-- The parts together have room for all elements. -/
theorem le_parts_mul (elements bits : Nat) {parts : Nat} (h : parts ≠ 0) :
    elements * bits ≤ parts * (Count.ceilDiv elements parts * bits) :=
  calc elements * bits ≤ Count.ceilDiv elements parts * parts * bits :=
        Nat.mul_le_mul_right bits (Count.le_ceilDiv_mul elements h)
    _ = parts * (Count.ceilDiv elements parts * bits) := by
        rw [Nat.mul_comm (Count.ceilDiv elements parts), Nat.mul_assoc]

/-- **For which arrays the banks suffice.** The banks that are counted for an array stay at the
    limit or hold all its bits, in exact arithmetic, just if as many parts with the most banks pass
    the limit or hold all its bits. -/
theorem capacity_storageElements_iff (elements bits partition : Nat) :
    (storageElements elements bits partition = Count.limit ∨
        elements * bits ≤ storageElements elements bits partition * bankBits) ↔
      Count.limit ≤ max partition 1 * fullPart ∨
        elements * bits ≤ max partition 1 * fullPart * bankBits := by
  rw [storageElements_eq_parts]
  have hparts : max partition 1 ≠ 0 := by omega
  have hroom := le_parts_mul elements bits hparts
  generalize max partition 1 = parts at *
  generalize Count.ceilDiv elements parts * bits = partBits at *
  have hbanks : parts * partBanks partBits ≤ parts * fullPart :=
    Nat.mul_le_mul_left parts (partBanks_le partBits)
  constructor
  · rintro (hlimit | hholds)
    · exact .inl (by omega)
    · exact .inr (Nat.le_trans hholds (Nat.mul_le_mul_right _ (by omega)))
  · intro h
    rcases Nat.le_total Count.limit (parts * partBanks partBits) with hover | hbelow
    · exact .inl (Nat.min_eq_right hover)
    rw [Nat.min_eq_left hbelow]
    rcases Nat.le_total partBits (fullPart * bankBits) with hfits | hfull
    · refine .inr (Nat.le_trans hroom ?_)
      rw [Nat.mul_assoc]
      exact Nat.mul_le_mul_left parts (le_partBanks hfits)
    · -- a part that the most banks do not hold is given just these
      have hlimit : Count.limit ≤ fullPart * bankBits := by decide
      rw [partBanks_of_limit_le (Nat.le_trans hlimit hfull)] at hbelow ⊢
      exact h.imp_left (Nat.le_antisymm hbelow)

/-- Two dimensions of 2^31 words of 32 bits in one part have 2^67 bits, and are given banks for
    less than 2^65. -/
theorem capacity_exceeded :
    storageElements (2 ^ 62) 32 1 = 1000799917193444 ∧
      ¬ (storageElements (2 ^ 62) 32 1 = Count.limit ∨
        2 ^ 62 * 32 ≤ storageElements (2 ^ 62) 32 1 * bankBits) := by
  decide

end DesignSpace
