/-
  Subject:   EVEN STAGES COVER THE PARTS. They are as many as asked for, as far as there are parts;
             each starts where the one before ends, from the first position up to the end; the
             larger ones stand first, and no two differ in size by more than one.

  * `Span.sizes_consecutive`, `chain_consecutive`, `positions_consecutive`: spans of given sizes
    have these sizes, stand in a row, and hold each position once;
  * `evenSizes`, `evenSizes_ordered`, `evenSizes_near`: the sizes of even stages;
  * `Span.Even`: what even stages are;
  * `even_evenStages`: **even stages are even**, for every number of parts and of stages.
-/
import DesignSpace.Proofs.Estimate.Balanced

namespace DesignSpace

/-! ## 1. Spans of given sizes -/

namespace Span

/-- The positions of a span. -/
def positions (s : Span) : List Nat := List.range' s.start s.size

variable {sizes : List Nat}

@[simp]
theorem sizes_consecutive (start : Nat) (sizes : List Nat) :
    (consecutive start sizes).map size = sizes := by
  induction sizes generalizing start with
  | nil => rfl
  | cons n sizes ih => simp [consecutive, size, ih]

@[simp]
theorem head?_consecutive (start : Nat) (sizes : List Nat) :
    (consecutive start sizes).head?.map Span.start = sizes.head?.map fun _ => start := by
  cases sizes <;> rfl

theorem getLast?_consecutive (start : Nat) (h : sizes ≠ []) :
    (consecutive start sizes).getLast?.map stop = some (start + sizes.sum) := by
  induction sizes generalizing start with
  | nil => exact absurd rfl h
  | cons n sizes ih =>
      cases sizes with
      | nil => rfl
      | cons m sizes =>
          have hrest := ih (start + n) (List.cons_ne_nil m sizes)
          rw [consecutive, List.sum_cons, ← Nat.add_assoc, ← hrest]
          rfl

/-- Each span starts where the one before ends. -/
theorem chain_consecutive (start : Nat) (sizes : List Nat) :
    (consecutive start sizes).IsChain fun s t => s.stop = t.start := by
  induction sizes generalizing start with
  | nil => exact .nil
  | cons n sizes ih =>
      cases sizes with
      | nil => exact .singleton _
      | cons m sizes => exact .cons_cons rfl (ih (start + n))

/-- **No gap and no overlap**: the positions of the spans are those in a row. -/
theorem positions_consecutive (start : Nat) (sizes : List Nat) :
    (consecutive start sizes).flatMap positions = List.range' start sizes.sum := by
  induction sizes generalizing start with
  | nil => rfl
  | cons n sizes ih =>
      rw [consecutive, List.flatMap_cons, ih, List.sum_cons, ← List.range'_append_1]
      simp [positions, size]

end Span

/-! ## 2. The sizes of even stages -/

/-- The sizes of `k` even stages of `n` items. -/
def evenSizes (n k : Nat) : List Nat :=
  List.replicate (n % k) (n / k + 1) ++ List.replicate (k - n % k) (n / k)

theorem evenStages_eq_consecutive (n k : Nat) :
    evenStages n k = Span.consecutive 0 (evenSizes n (stageCount n k)) := rfl

variable {n k size : Nat}

theorem mem_evenSizes (h : size ∈ evenSizes n k) : size = n / k + 1 ∨ size = n / k :=
  (List.mem_append.mp h).imp List.eq_of_mem_replicate List.eq_of_mem_replicate

theorem evenSizes_ordered (n k : Nat) : (evenSizes n k).Pairwise (· ≥ ·) := by
  refine List.pairwise_append.mpr ⟨?_, ?_, fun a ha b hb => ?_⟩
  · exact List.pairwise_replicate.mpr (.inr (Nat.le_refl _))
  · exact List.pairwise_replicate.mpr (.inr (Nat.le_refl _))
  · rw [List.eq_of_mem_replicate ha, List.eq_of_mem_replicate hb]
    exact Nat.le_succ _

/-! ## 3. Even stages -/

/-- **Spans that cover `n` positions evenly**: none is empty, they stand in a row from the first
    position up to the end, the larger ones stand first, and no two differ in size by more than
    one. -/
structure Span.Even (spans : List Span) (n : Nat) : Prop where
  nonempty : ∀ s ∈ spans, s.start < s.stop
  first : spans.head?.map Span.start = some 0
  last : spans.getLast?.map Span.stop = some n
  chain : spans.IsChain fun s t => s.stop = t.start
  positions : spans.flatMap Span.positions = List.range n
  ordered : spans.Pairwise fun s t => t.size ≤ s.size
  near : ∀ s ∈ spans, ∀ t ∈ spans, s.size ≤ t.size + 1

theorem size_mem_evenSizes {s : Span} (hs : s ∈ evenStages n k) :
    s.size ∈ evenSizes n (stageCount n k) := by
  rw [← Span.sizes_consecutive 0 (evenSizes n (stageCount n k)), ← evenStages_eq_consecutive]
  exact List.mem_map_of_mem hs

/-- **Even stages are even**, and there are as many as asked for, but at least one and at most one
    for each part. -/
theorem even_evenStages (n k : Nat) (hn : 1 ≤ n) :
    (evenStages n k).length = min (max k 1) n ∧ Span.Even (evenStages n k) n := by
  have hcount := stageCount_pos n k
  have hsum : (evenSizes n (stageCount n k)).sum = n := sum_even_sizes n hcount
  have hsizes : evenSizes n (stageCount n k) ≠ [] := by
    intro h
    rw [h, List.sum_nil] at hsum
    omega
  refine ⟨?_, ?nonempty, ?first, ?last, ?chain, ?positions, ?ordered, ?near⟩
  · rw [length_evenStages, stageCount, Count.clamp, Nat.max_eq_left hn]
  case nonempty => exact fun s hs => ((trail_evenStages hn k).mem (List.mem_reverse.mpr hs)).1
  case first =>
    rw [evenStages_eq_consecutive, Span.head?_consecutive, List.head?_eq_some_head hsizes]
    rfl
  case last =>
    rw [evenStages_eq_consecutive, Span.getLast?_consecutive 0 hsizes, hsum, Nat.zero_add]
  case chain => exact Span.chain_consecutive 0 _
  case positions =>
    rw [evenStages_eq_consecutive, Span.positions_consecutive, hsum, List.range_eq_range']
  case ordered =>
    have hordered := evenSizes_ordered n (stageCount n k)
    rwa [← Span.sizes_consecutive 0 (evenSizes n (stageCount n k)), List.pairwise_map] at hordered
  case near =>
    intro s hs t ht
    have hs := mem_evenSizes (size_mem_evenSizes hs)
    have ht := mem_evenSizes (size_mem_evenSizes ht)
    omega

/-- Seven parts in three stages, and two parts where five stages are asked for. -/
theorem even_evenStages_seven :
    1 ≤ 7 ∧ evenStages 7 3 = [⟨0, 3⟩, ⟨3, 5⟩, ⟨5, 7⟩] ∧
      (evenStages 7 3).length = min (max 3 1) 7 ∧ Span.Even (evenStages 7 3) 7 ∧
      (evenStages 2 5).length = min (max 5 1) 2 ∧ Span.Even (evenStages 2 5) 2 :=
  ⟨by decide, by decide, (even_evenStages 7 3 (by decide)).1, (even_evenStages 7 3 (by decide)).2,
    (even_evenStages 2 5 (by decide)).1, (even_evenStages 2 5 (by decide)).2⟩

end DesignSpace
