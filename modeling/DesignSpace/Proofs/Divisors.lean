/-
  Subject:   THE DIVISORS of a count are listed, all of them and each once, in ascending order.

  * `Pending`: the divisors that trial division has not met before a candidate;
  * `Listed`: a list of them, with what a candidate adds to it;
  * `divisorPairs_eq`: what trial division adds between its two lists;
  * `mem_divisors_iff`: **the list holds the divisors and nothing else**;
  * `pairwise_divisors`: it ascends.
-/
import Mathlib.Data.Nat.Basic
import DesignSpace.Divisors

namespace DesignSpace

/-! ## 1. Divisors still to come -/

/-- A divisor that is met at `d` or later, together with its partner. -/
structure Pending (n d x : Nat) : Prop where
  dvd : x ∣ n
  le : d ≤ x
  le_div : d ≤ n / x

variable {n d x : Nat}

/-- Past the square root nothing is to come. -/
theorem not_pending (h : n / d < d) : ¬ Pending n d x := by
  intro hx
  have hn : n < d * d := (Nat.div_lt_iff_lt_mul (Nat.zero_lt_of_lt h)).mp h
  have hle : d * d ≤ n :=
    calc d * d ≤ x * (n / x) := Nat.mul_le_mul hx.le hx.le_div
      _ = n := Nat.mul_div_cancel' hx.dvd
  omega

/-- A candidate that divides nothing is passed over. -/
theorem pending_iff_of_not_dvd (h : ¬ d ∣ n) : Pending n d x ↔ Pending n (d + 1) x := by
  constructor
  · intro hx
    have hself : d ≠ x := by
      intro hdx
      exact h (hdx ▸ hx.dvd)
    have hpartner : d ≠ n / x := by
      intro hdx
      exact h (hdx ▸ Nat.div_dvd_of_dvd hx.dvd)
    have hle := hx.le
    have hdiv := hx.le_div
    exact ⟨hx.dvd, by omega, by omega⟩
  · intro hx
    exact ⟨hx.dvd, Nat.le_of_succ_le hx.le, Nat.le_of_succ_le hx.le_div⟩

/-- A candidate that is a divisor is met with its partner. -/
theorem pending_iff_of_dvd (h : d ∣ n) (hle : d ≤ n / d) (hd : 0 < d) :
    Pending n d x ↔ x = d ∨ Pending n (d + 1) x ∨ x = n / d := by
  have hn : 0 < n := by
    rcases Nat.eq_zero_or_pos n with hzero | hpos
    · rw [hzero, Nat.zero_div] at hle
      omega
    · exact hpos
  constructor
  · intro hx
    by_cases hself : x = d
    · exact .inl hself
    by_cases hpartner : d = n / x
    · have hback : n / d = x := by rw [hpartner, Nat.div_div_self hx.dvd (Nat.ne_of_gt hn)]
      exact .inr (.inr hback.symm)
    · have hx1 := hx.le
      have hx2 := hx.le_div
      exact .inr (.inl ⟨hx.dvd, by omega, by omega⟩)
  · intro hor
    rcases hor with hself | hlater | hpartner
    · rw [hself]
      exact ⟨h, Nat.le_refl d, hle⟩
    · exact ⟨hlater.dvd, Nat.le_of_succ_le hlater.le, Nat.le_of_succ_le hlater.le_div⟩
    · rw [hpartner]
      have hback : n / (n / d) = d := Nat.div_div_self h (Nat.ne_of_gt hn)
      exact ⟨Nat.div_dvd_of_dvd h, hle, Nat.le_of_eq hback.symm⟩

/-- What comes later lies between a candidate and its partner. -/
theorem Pending.lt_div (h : Pending n (d + 1) x) (hd : 0 < d) : x < n / d := by
  have hx := h.le
  have hmul : (d + 1) * x ≤ n := (Nat.le_div_iff_mul_le (by omega)).mp h.le_div
  have hnext : (x + 1) * d ≤ n := by
    have hsum : (d + 1) * x = x * d + x := by rw [Nat.add_mul, Nat.one_mul, Nat.mul_comm]
    have hsum' : (x + 1) * d = x * d + d := by rw [Nat.add_mul, Nat.one_mul]
    omega
  exact (Nat.le_div_iff_mul_le hd).mpr hnext

/-! ## 2. Trial division -/

/-- A list of the divisors that are met at `d` or later, ascending. -/
structure Listed (n d : Nat) (xs : List Nat) : Prop where
  ascending : xs.Pairwise (· < ·)
  mem_iff : ∀ x, x ∈ xs ↔ Pending n d x

theorem listed_nil (h : n / d < d) : Listed n d [] :=
  ⟨.nil, fun _ => iff_of_false List.not_mem_nil (not_pending h)⟩

namespace Listed

variable {xs : List Nat}

/-- A candidate that divides nothing adds nothing. -/
theorem skip (h : Listed n (d + 1) xs) (hdvd : ¬ d ∣ n) : Listed n d xs := by
  refine ⟨h.ascending, fun x => ?_⟩
  rw [h.mem_iff, pending_iff_of_not_dvd hdvd]

theorem lt_of_mem (h : Listed n (d + 1) xs) {x : Nat} (hx : x ∈ xs) : d < x :=
  ((h.mem_iff x).mp hx).le

/-- A candidate that is its own partner goes in front. -/
theorem square (h : Listed n (d + 1) xs) (hd : 0 < d) (hdvd : d ∣ n) (hsquare : d = n / d) :
    Listed n d (d :: xs) := by
  refine ⟨List.pairwise_cons.mpr ⟨fun x => h.lt_of_mem, h.ascending⟩, fun x => ?_⟩
  rw [List.mem_cons, h.mem_iff, pending_iff_of_dvd hdvd (Nat.le_of_eq hsquare) hd, ← hsquare]
  exact ⟨fun h => h.imp_right .inl, fun h => h.elim .inl fun h => h.elim .inr .inl⟩

/-- Any other divisor goes in front, and its partner to the end. -/
theorem pair (h : Listed n (d + 1) xs) (hd : 0 < d) (hdvd : d ∣ n) (hlt : d < n / d) :
    Listed n d (d :: (xs ++ [n / d])) := by
  have hupper : ∀ x ∈ xs, ∀ y ∈ [n / d], x < y := by
    intro x hx y hy
    rw [List.mem_singleton.mp hy]
    exact ((h.mem_iff x).mp hx).lt_div hd
  refine ⟨List.pairwise_cons.mpr ⟨fun x hx => ?_, ?_⟩, fun x => ?_⟩
  · rcases List.mem_append.mp hx with hx | hx
    · exact h.lt_of_mem hx
    · rw [List.mem_singleton.mp hx]
      exact hlt
  · exact List.pairwise_append.mpr ⟨h.ascending, List.pairwise_singleton _ _, hupper⟩
  · rw [List.mem_cons, List.mem_append, List.mem_singleton, h.mem_iff,
      pending_iff_of_dvd hdvd (Nat.le_of_lt hlt) hd]

end Listed

/-- **What trial division adds** between its two lists: the divisors still to come. -/
theorem divisorPairs_eq (fuel : Nat) (low high : List Nat) (hd : 0 < d) (hfuel : n < d + fuel) :
    ∃ mid, divisorPairs n fuel d low high = low.reverse ++ (mid ++ high) ∧ Listed n d mid := by
  induction fuel generalizing d low high with
  | zero =>
      have hzero : n / d = 0 := Nat.div_eq_of_lt hfuel
      exact ⟨[], rfl, listed_nil (by omega)⟩
  | succ fuel ih =>
      unfold divisorPairs
      by_cases hroot : d ≤ n / d
      · rw [if_pos hroot]
        by_cases hmod : n % d = 0
        · have hdvd : d ∣ n := Nat.dvd_of_mod_eq_zero hmod
          have hrest := @ih (d + 1) (d :: low) (if d = n / d then high else n / d :: high)
            (Nat.succ_pos d) (by omega)
          rcases hrest with ⟨mid, heq, hmid⟩
          rw [if_pos hmod, heq, List.reverse_cons, List.append_assoc]
          by_cases hsquare : d = n / d
          · rw [if_pos hsquare]
            exact ⟨d :: mid, rfl, hmid.square hd hdvd hsquare⟩
          · rw [if_neg hsquare]
            exact ⟨d :: (mid ++ [n / d]), by simp, hmid.pair hd hdvd (by omega)⟩
        · have hrest := @ih (d + 1) low high (Nat.succ_pos d) (by omega)
          rcases hrest with ⟨mid, heq, hmid⟩
          rw [if_neg hmod, heq]
          exact ⟨mid, rfl, hmid.skip fun hdvd => hmod (Nat.mod_eq_zero_of_dvd hdvd)⟩
      · rw [if_neg hroot]
        exact ⟨[], rfl, listed_nil (by omega)⟩

/-! ## 3. The list -/

theorem listed_divisors (n : Nat) : Listed n 1 (divisors n) := by
  have h := @divisorPairs_eq n 1 n [] [] Nat.one_pos (by omega)
  rcases h with ⟨mid, heq, hmid⟩
  have hlist : divisors n = mid := by
    unfold divisors
    rw [heq, List.append_nil]
    rfl
  rw [hlist]
  exact hmid

/-- **The list holds the divisors and nothing else**; zero has none. -/
theorem mem_divisors_iff : x ∈ divisors n ↔ x ∣ n ∧ n ≠ 0 := by
  rw [(listed_divisors n).mem_iff]
  constructor
  · intro hx
    have hdiv := hx.le_div
    refine ⟨hx.dvd, fun hzero => ?_⟩
    rw [hzero, Nat.zero_div] at hdiv
    omega
  · intro hx
    have hpos : 0 < n := Nat.pos_of_ne_zero hx.2
    have hx0 : 0 < x := Nat.pos_of_dvd_of_pos hx.1 hpos
    exact ⟨hx.1, hx0, Nat.div_pos (Nat.le_of_dvd hpos hx.1) hx0⟩

theorem pairwise_divisors (n : Nat) : (divisors n).Pairwise (· < ·) := (listed_divisors n).ascending

end DesignSpace
