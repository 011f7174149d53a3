/-
  Subject:   BALANCED STAGES ARE THE BEST ONES. Of all ways to group items into as many spans in a
             row, none has a smaller largest sum; and each stage starts as early as that allows.

  * `Span.slowest`: the largest sum of a span;
  * `Span.Best`: a grouping of the first items that no other one with as many spans improves on;
  * `Row.best_of_cut`: following the cuts back gives the best grouping;
  * `Row.cut_of_trace`: each span on the way back is the last one of such a grouping;
  * `balancedStages_best`: **the whole grouping is the best one, each part of it up to the end of a
    stage is, and no stage could start earlier.**
-/
import DesignSpace.Proofs.Stages

namespace DesignSpace

/-! ## 1. Groupings -/

namespace Span

/-- The largest sum of a span. -/
def slowest (xs : List Nat) (spans : List Span) : Nat :=
  (spans.map fun s => (s.slice xs).sum).foldr max 0

/-- **The best grouping** of the first `stop` items into as many spans: the spans stand in a row,
    none of them empty, from the first item up to `stop`, and no other such spans have a smaller
    largest sum. -/
structure Best (xs : List Nat) (stop : Nat) (spans : List Span) : Prop where
  trail : Trail spans.reverse stop
  least : ∀ others, Trail others.reverse stop → others.length = spans.length →
    slowest xs spans ≤ slowest xs others

variable {xs : List Nat} {spans : List Span} {b : Nat}

theorem slowest_le_iff : slowest xs spans ≤ b ↔ ∀ s ∈ spans, (s.slice xs).sum ≤ b := by
  induction spans with
  | nil => exact iff_of_true (Nat.zero_le b) nofun
  | cons s spans ih => rw [List.forall_mem_cons, ← ih, slowest, slowest, List.map_cons,
      List.foldr_cons, Nat.max_le]

theorem sum_le_slowest {s : Span} (hs : s ∈ spans) : (s.slice xs).sum ≤ slowest xs spans :=
  slowest_le_iff.mp (Nat.le_refl _) s hs

end Span

/-! ## 2. Cuts and groupings -/

/-- Where no sum passes the limit, the sums before positions say what the spans sum up to. -/
theorem spanSum_eq_sum {xs : List Nat} (hlimit : xs.sum ≤ Count.limit) {i j : Nat} (hij : i ≤ j)
    (hj : j ≤ xs.length) : spanSum (prefixSums xs) i j = ((Span.mk i j).slice xs).sum := by
  have hi := sum_take_add hij xs
  have hall := sum_take_add hj xs
  rw [List.take_length] at hall
  rw [spanSum_eq hij hj]
  omega

namespace Row

variable {xs : List Nat} {k j : Nat} {c : Cut} {spans : List Span}

theorem lt_length_sums (hj : j ≤ xs.length) : j < (prefixSums xs).length := by
  rw [length_prefixSums]
  omega

/-- Spans in a row group the items before their end, and none costs more than the slowest one. -/
theorem groupable_of_trail (hlimit : xs.sum ≤ Count.limit) (hj : j ≤ xs.length)
    (h : Span.Trail spans j) {b : Nat} (hb : ∀ s ∈ spans, (s.slice xs).sum ≤ b) :
    Groupable (spanSum (prefixSums xs)) b spans.length j := by
  refine .of_trail h fun s hs => ?_
  obtain ⟨hlt, hle⟩ := h.mem hs
  rw [spanSum_eq_sum hlimit (Nat.le_of_lt hlt) (Nat.le_trans hle hj)]
  exact hb s hs

/-- **Following the cuts back** gives the best grouping, and the cut knows its largest sum. -/
theorem best_of_cut (hlimit : xs.sum ≤ Count.limit) (hj : j ≤ xs.length)
    (hc : cut? (of (prefixSums xs) k) j = some c) :
    Span.Best xs j (traceCuts (upTo (prefixSums xs) k) j).reverse ∧
      Span.slowest xs (traceCuts (upTo (prefixSums xs) k) j).reverse = c.slowest := by
  have hsums := prefixSums_ne_nil xs
  have hlt := lt_length_sums hj
  obtain ⟨htrail, hlength, hcost⟩ := trail_of_cut hsums hlt hc
  have hright := (right_of hsums k).some j hlt c hc
  have hleast : ∀ others : List Span, Span.Trail others.reverse j → others.length = k →
      c.slowest ≤ Span.slowest xs others := by
    intro others hothers hk
    refine hright.least _ ?_
    have hgroups := groupable_of_trail hlimit hj hothers (b := Span.slowest xs others)
      fun s hs => Span.sum_le_slowest (List.mem_reverse.mp hs)
    rwa [List.length_reverse, hk] at hgroups
  have hle : Span.slowest xs (traceCuts (upTo (prefixSums xs) k) j).reverse ≤ c.slowest := by
    refine Span.slowest_le_iff.mpr fun s hs => ?_
    have hs := List.mem_reverse.mp hs
    obtain ⟨hs1, hs2⟩ := htrail.mem hs
    rw [← spanSum_eq_sum hlimit (Nat.le_of_lt hs1) (Nat.le_trans hs2 hj)]
    exact hcost s hs
  have htrail : Span.Trail (traceCuts (upTo (prefixSums xs) k) j).reverse.reverse j := by
    rwa [List.reverse_reverse]
  have hlength : (traceCuts (upTo (prefixSums xs) k) j).reverse.length = k := by
    rw [List.length_reverse, hlength]
  refine ⟨⟨htrail, fun others hothers hk => ?_⟩, Nat.le_antisymm hle (hleast _ htrail hlength)⟩
  exact Nat.le_trans hle (hleast others hothers (hk.trans hlength))

/-- **Each span on the way back** ends where there is a cut, and from there on the way back is the
    one that follows that cut. -/
theorem cut_of_trace {sums : List Nat} (hsums : sums ≠ []) (hj : j < sums.length)
    (hc : cut? (of sums k) j = some c) {front rest : List Span} {s : Span}
    (h : traceCuts (upTo sums k) j = front ++ s :: rest) :
    ∃ m c', cut? (of sums (m + 1)) s.stop = some c' ∧ s.stop ≤ j ∧ s.start = c'.start ∧
      rest = traceCuts (upTo sums m) c'.start := by
  induction k generalizing j c front with
  | zero =>
      have hnil : front ++ s :: rest = [] := h.symm
      exact absurd hnil (by simp)
  | succ k ih =>
      rw [traceCuts_succ hc] at h
      have hstart := start_of hsums hj hc
      cases front with
      | nil =>
          obtain ⟨rfl, rfl⟩ := List.cons.inj h
          exact ⟨k, c, hc, Nat.le_refl j, rfl, rfl⟩
      | cons first front =>
          obtain ⟨-, h⟩ := List.cons.inj h
          have hlt := hstart.lt
          obtain ⟨c', hc', -⟩ := (right_of hsums k).exists_cut (by omega) hstart.before
          obtain ⟨m, c'', hcut, hle, hstop, hrest⟩ := ih (by omega) hc' h
          exact ⟨m, c'', hcut, by omega, hstop, hrest⟩

/-- **The last span starts as early as it can**: in no other best grouping it starts earlier. -/
theorem start_le_of_best (hlimit : xs.sum ≤ Count.limit) (hj : j ≤ xs.length)
    (hc : cut? (of (prefixSums xs) (k + 1)) j = some c) {others : List Span} {i : Nat}
    (hothers : Span.Best xs j (others ++ [⟨i, j⟩])) (hk : others.length = k) : c.start ≤ i := by
  have hsums := prefixSums_ne_nil xs
  have hlt := lt_length_sums hj
  obtain ⟨htrail, hlength, -⟩ := trail_of_cut hsums hlt hc
  obtain ⟨-, hslowest⟩ := best_of_cut hlimit hj hc
  have hle : Span.slowest xs (others ++ [⟨i, j⟩]) ≤ c.slowest := by
    rw [← hslowest]
    refine hothers.least _ (by rwa [List.reverse_reverse]) ?_
    rw [List.length_reverse, hlength, List.length_append, hk]
    rfl
  have hsum := Span.slowest_le_iff.mp hle
  have hrow := hothers.trail
  rw [List.reverse_concat] at hrow
  cases hrow with
  | cons hij hbefore =>
      -- an earlier start would leave too much for the last span
      refine Nat.le_of_not_lt fun hearlier => ?_
      have hgroups := groupable_of_trail hlimit (Nat.le_trans (Nat.le_of_lt hij) hj) hbefore
        fun s hs => hsum s (List.mem_append_left _ (List.mem_reverse.mp hs))
      rw [List.length_reverse, hk] at hgroups
      have hmore := (start_of hsums hlt hc).earliest i hearlier hgroups
      rw [spanSum_eq_sum hlimit (Nat.le_of_lt hij) hj] at hmore
      have hlast := hsum ⟨i, j⟩ (List.mem_append_right _ List.mem_cons_self)
      omega

end Row

/-! ## 3. Balanced stages -/

/-- **Balanced stages are the best ones.** Take items that sum up to no more than the limit. They
    are grouped into as many stages as asked for, but at least one and at most one for each item.
    The stages stand in a row from the first item to the last, none of them empty, and no other
    grouping into as many has a smaller largest sum. The same holds of the items before the end of
    any stage and the stages up to it, and no best grouping of those has its last span start
    earlier than that stage. -/
theorem balancedStages_best {xs : List Nat} (hxs : xs ≠ []) (hlimit : xs.sum ≤ Count.limit)
    (k : Nat) :
    (balancedStages xs k).length = min (max k 1) xs.length ∧
    Span.Best xs xs.length (balancedStages xs k) ∧
    ∀ before s after, balancedStages xs k = before ++ s :: after →
      Span.Best xs s.stop (before ++ [s]) ∧
      ∀ others i, Span.Best xs s.stop (others ++ [⟨i, s.stop⟩]) →
        others.length = before.length → s.start ≤ i := by
  have hsums := prefixSums_ne_nil xs
  have hn := List.length_pos_iff.mpr hxs
  obtain ⟨c, hc⟩ := exists_cut_balanced hxs k
  have hlt := Row.lt_length_sums (Nat.le_refl xs.length)
  rw [balancedStages_eq hxs]
  refine ⟨?_, (Row.best_of_cut hlimit (Nat.le_refl _) hc).1, fun before s after h => ?_⟩
  · rw [List.length_reverse, (Row.trail_of_cut hsums hlt hc).2.1, stageCount, Count.clamp]
    omega
  · have htrace : traceCuts (Row.upTo (prefixSums xs) (stageCount xs.length k)) xs.length =
        after.reverse ++ s :: before.reverse := by
      rw [← List.reverse_reverse (traceCuts _ _), h]
      simp
    obtain ⟨m, c', hcut, hstop, hstart, hrest⟩ := Row.cut_of_trace hsums hlt hc htrace
    have hpart : before ++ [s] = (traceCuts (Row.upTo (prefixSums xs) (m + 1)) s.stop).reverse := by
      rw [Row.traceCuts_succ hcut, ← hrest, ← hstart]
      simp
    have hm : before.length = m := by
      have hlt' := Row.lt_length_sums hstop
      have hlength := (Row.trail_of_cut hsums hlt' hcut).2.1
      have hcount := congrArg List.length hpart
      rw [List.length_reverse, hlength, List.length_append, List.length_singleton] at hcount
      omega
    rw [hpart]
    refine ⟨(Row.best_of_cut hlimit hstop hcut).1, fun others i hothers hlength => ?_⟩
    rw [hstart]
    exact Row.start_le_of_best hlimit hstop hcut hothers (hlength.trans hm)

/-- Of four items the first three make two stages. The second of these could start one item later
    with the same largest sum, but it starts as early as it can. -/
theorem balancedStages_best_four : balancedStages [4, 0, 4, 6] 3 = [⟨0, 1⟩, ⟨1, 3⟩, ⟨3, 4⟩] ∧
    Span.Best [4, 0, 4, 6] 4 [⟨0, 1⟩, ⟨1, 3⟩, ⟨3, 4⟩] ∧
    Span.Best [4, 0, 4, 6] 3 [⟨0, 1⟩, ⟨1, 3⟩] ∧
    Span.slowest [4, 0, 4, 6] [⟨0, 2⟩, ⟨2, 3⟩] = Span.slowest [4, 0, 4, 6] [⟨0, 1⟩, ⟨1, 3⟩] ∧
    ∀ others i, Span.Best [4, 0, 4, 6] 3 (others ++ [⟨i, 3⟩]) → others.length = 1 → 1 ≤ i := by
  have hstages : balancedStages [4, 0, 4, 6] 3 = [⟨0, 1⟩, ⟨1, 3⟩, ⟨3, 4⟩] := by decide
  obtain ⟨-, hbest, hparts⟩ := @balancedStages_best [4, 0, 4, 6] (by decide) (by decide) 3
  obtain ⟨hpart, hstart⟩ := hparts [⟨0, 1⟩] ⟨1, 3⟩ [⟨3, 4⟩] hstages
  exact ⟨hstages, hstages ▸ hbest, hpart, rfl, fun others i h hlength => hstart others i h hlength⟩

end DesignSpace
