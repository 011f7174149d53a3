/-
  Subject:   GUARDED TRIAL DIVISION. The search for the divisors of a count turn by turn, with a
             guard in front of every quotient, every remainder and the step to the next candidate.
             It traps for no count, and ends when the candidate has passed the square root.

  * `Guarded.Trial`, `Trial.turn`, `Trial.run`: a candidate with what has been found before it, one
    turn, and what has been found within some turns;
  * `Trial.outcome`: what the division without guards finds from there;
  * `Trial.turn_ahead`, `turn_past`: **one turn** leaves the outcome as it is, or ends with it;
  * `Trial.run_eq`: **some turns** end with the outcome if they pass the square root;
  * `Guarded.trialDivision_exact`: when the search for the divisors of a count ends, and with what.
-/
import Mathlib.Data.Nat.Sqrt
import DesignSpace.Proofs.Divisors
import DesignSpace.Proofs.Guarded.Arithmetic

namespace DesignSpace

namespace Guarded

/-! ## 1. Turns -/

/-- Where trial division stands: the next candidate, and the divisors found up to the square root
    and above it, in the order of `divisorPairs`. -/
structure Trial where
  candidate : Nat
  low : List Nat
  high : List Nat
deriving DecidableEq, Repr

namespace Trial

/-- Where trial division starts. -/
def start : Trial := ⟨1, [], []⟩

/-- The divisors found. -/
def found (t : Trial) : List Nat := t.low.reverse ++ t.high

/-- A candidate that is a divisor, with its partner. -/
def enter (n : Nat) (t : Trial) : Guarded Trial := do
  let partner ← div n t.candidate
  let high := if t.candidate = partner then t.high else partner :: t.high
  return { t with low := t.candidate :: t.low, high }

/-- One turn; nothing comes after the square root. -/
def turn (n : Nat) (t : Trial) : Guarded (Option Trial) := do
  let bound ← div n t.candidate
  if t.candidate ≤ bound then
    let rest ← mod n t.candidate
    let entered ← if rest = 0 then t.enter n else pure t
    let next ← add t.candidate 1
    return some { entered with candidate := next }
  else return none

/-- The divisors found by a search that ends within some turns; nothing if it takes more. -/
def run (n : Nat) : (turns : Nat) → Trial → Guarded (Option (List Nat))
  | 0, _ => return none
  | turns + 1, t => do
    match ← t.turn n with
    | none => return some t.found
    | some next => run n turns next

/-- The divisors that are found in the end. -/
def outcome (n : Nat) (t : Trial) : List Nat :=
  divisorPairs n (n + 1 - t.candidate) t.candidate t.low t.high

theorem outcome_start (n : Nat) : outcome n start = divisors n := rfl

/-! ## 2. One turn -/

variable {n : Nat} {t : Trial}

/-- A candidate is tried up to the square root. -/
theorem le_div_iff (hd : 0 < t.candidate) :
    t.candidate ≤ n / t.candidate ↔ t.candidate ≤ n.sqrt := by
  rw [Nat.le_div_iff_mul_le hd, Nat.le_sqrt]

/-- **Up to the square root** a turn leads to the next candidate, with the same outcome. -/
theorem turn_ahead (hn : n ≤ Count.limit) (hd : 0 < t.candidate) (hle : t.candidate ≤ n.sqrt) :
    ∃ next, t.turn n = .ok (some next) ∧ next.candidate = t.candidate + 1 ∧
      outcome n next = outcome n t := by
  have hbound : t.candidate ≤ n / t.candidate := (le_div_iff hd).mpr hle
  have hself : t.candidate ≤ n := Nat.le_trans hbound (Nat.div_le_self _ _)
  have hnext : t.candidate + 1 ≤ Count.limit := by
    have hsquare : t.candidate * t.candidate ≤ n := Nat.le_sqrt.mp hle
    have hlimit : 2 ≤ Count.limit := by decide
    rcases Nat.lt_or_ge t.candidate 2 with h | h
    · omega
    · have hdouble := Nat.mul_le_mul_right t.candidate h
      omega
  have hfuel : n + 1 - t.candidate = n + 1 - (t.candidate + 1) + 1 := by omega
  have hd0 : t.candidate ≠ 0 := Nat.ne_of_gt hd
  unfold turn outcome
  rw [div_eq hd0, ok_bind, if_pos hbound, mod_eq hd0, ok_bind, add_eq hnext, hfuel, divisorPairs,
    if_pos hbound]
  by_cases hmod : n % t.candidate = 0
  · rw [if_pos hmod, if_pos hmod, enter, div_eq hd0]
    exact ⟨_, rfl, rfl, rfl⟩
  · rw [if_neg hmod, if_neg hmod]
    exact ⟨_, rfl, rfl, rfl⟩

/-- **Past the square root** the search ends, and what has been found is the outcome. -/
theorem turn_past (hd : 0 < t.candidate) (hlt : n.sqrt < t.candidate) :
    t.turn n = .ok none ∧ outcome n t = t.found := by
  have hbound : ¬ t.candidate ≤ n / t.candidate :=
    fun h => Nat.not_lt.mpr ((le_div_iff hd).mp h) hlt
  constructor
  · rw [turn, div_eq (Nat.ne_of_gt hd), ok_bind, if_neg hbound]
    rfl
  · unfold outcome
    cases n + 1 - t.candidate with
    | zero => rfl
    | succ fuel => rw [divisorPairs, if_neg hbound, found]

/-! ## 3. The search -/

/-- **Some turns** end with the outcome if they lead past the square root, and with nothing
    otherwise. -/
theorem run_eq (hn : n ≤ Count.limit) (turns : Nat) (hd : 0 < t.candidate)
    (hle : t.candidate ≤ n.sqrt + 1) : run n turns t =
      .ok (if n.sqrt + 1 < t.candidate + turns then some (outcome n t) else none) := by
  induction turns generalizing t with
  | zero =>
      rw [run, if_neg (by omega)]
      rfl
  | succ turns ih =>
      rw [run]
      rcases Nat.lt_or_ge n.sqrt t.candidate with hpast | hahead
      · have hturn := turn_past hd hpast
        rw [hturn.1, hturn.2, if_pos (by omega)]
        rfl
      · obtain ⟨next, hturn, hcandidate, houtcome⟩ := turn_ahead hn hd hahead
        have hrest := @ih next (by omega) (by omega)
        rw [hturn, ok_bind]
        dsimp only
        rw [hrest, houtcome, hcandidate, Nat.add_assoc, Nat.add_comm 1 turns]

example : run 36 6 start = .ok none ∧
    run 36 7 start = .ok (some [1, 2, 3, 4, 6, 9, 12, 18, 36]) := ⟨rfl, rfl⟩

end Trial

/-- **The search for the divisors of a count.** No number of turns traps. The search ends in the
    turn after as many as the square root, and not before; what it has found then are the divisors:
    each of them once, in ascending order and nothing else, and nothing at all for zero. -/
theorem trialDivision_exact {n : Nat} (hn : n ≤ Count.limit) :
    (∀ turns, Trial.run n turns .start =
        .ok (if n.sqrt < turns then some (divisors n) else none)) ∧
      (divisors n).Pairwise (· < ·) ∧
      (1 ≤ n → ∀ d, d ∈ divisors n ↔ 1 ≤ d ∧ d ∣ n) ∧ (n = 0 → divisors n = []) := by
  refine ⟨fun turns => ?_, pairwise_divisors n, fun hpos d => ?_, fun hzero => ?_⟩
  · rw [Trial.run_eq hn turns Nat.one_pos (Nat.le_add_left 1 _), Trial.outcome_start]
    show _ = Except.ok (if n.sqrt < turns then _ else none)
    have hturns : n.sqrt + 1 < Trial.start.candidate + turns ↔ n.sqrt < turns := by
      show n.sqrt + 1 < 1 + turns ↔ n.sqrt < turns
      omega
    rw [if_congr hturns rfl rfl]
  · rw [mem_divisors_iff]
    exact ⟨fun h => ⟨Nat.pos_of_dvd_of_pos h.1 hpos, h.1⟩, fun h => ⟨h.2, Nat.ne_of_gt hpos⟩⟩
  · rw [hzero]
    rfl

/-- The largest count: the search ends in the turn after 2^32 - 1, and finds the largest prime
    factor of the count and the count itself. -/
theorem trialDivision_exact_limit :
    Count.limit ≤ Count.limit ∧
      (∀ turns, Trial.run Count.limit turns .start =
        .ok (if 4294967295 < turns then some (divisors Count.limit) else none)) ∧
      (divisors Count.limit).Pairwise (· < ·) ∧
      6700417 ∈ divisors Count.limit ∧ Count.limit ∈ divisors Count.limit ∧
      6 ∉ divisors Count.limit := by
  obtain ⟨hrun, hordered, hmem, -⟩ := trialDivision_exact (Nat.le_refl Count.limit)
  have hroot : Count.limit.sqrt = 4294967295 := (Nat.eq_sqrt.mpr ⟨by decide, by decide⟩).symm
  rw [hroot] at hrun
  have hpos : 1 ≤ Count.limit := by decide
  exact ⟨Nat.le_refl _, hrun, hordered, (hmem hpos _).mpr (by decide),
    (hmem hpos _).mpr (by decide), fun h => absurd ((hmem hpos _).mp h) (by decide)⟩

end Guarded

end DesignSpace
