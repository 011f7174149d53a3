/-
  Subject:   BALANCED STAGES AGAINST EVEN ONES. A grouping is balanced by sums that stay at the limit
             of counts, and what a stage costs is added up anew. The two agree while the latencies
             together are within the limit; past it a balanced stage can be slower than it looks, by
             no more than what is past the limit.

  * `trail_evenStages`: even stages stand in a row;
  * `balancedStages_le_add`: **no other grouping into as many stages is better by more than the
    excess**;
  * `composeStages_balanced_le`: the same of latency and interval, against even stages;
  * `Overlong.slower_balanced`: three loops that balancing makes slower.
-/
import DesignSpace.Proofs.Design.Distinct
import DesignSpace.Proofs.Estimate.Compose
import DesignSpace.Proofs.Estimate.Fresh

namespace DesignSpace

/-! ## 1. Even stages -/

namespace Span

/-- Consecutive spans that are not empty go on from where others end. -/
theorem Trail.consecutive {spans : List Span} {start : Nat} (h : Trail spans start)
    {sizes : List Nat} (hsizes : ∀ n ∈ sizes, 0 < n) :
    Trail ((Span.consecutive start sizes).reverse ++ spans) (start + sizes.sum) := by
  induction sizes generalizing start spans with
  | nil => exact h
  | cons n sizes ih =>
      obtain ⟨hn, hrest⟩ := List.forall_mem_cons.mp hsizes
      have hspan : Trail (⟨start, start + n⟩ :: spans) (start + n) := .cons (by omega) h
      have htrail := ih hspan hrest
      rwa [Span.consecutive, List.reverse_cons, List.append_assoc, List.singleton_append,
        List.sum_cons, ← Nat.add_assoc]

end Span

/-- **Even stages stand in a row.** -/
theorem trail_evenStages {n : Nat} (hn : 0 < n) (k : Nat) :
    Span.Trail (evenStages n k).reverse n := by
  have hpos := stageCount_pos n k
  have hquotient : 0 < n / stageCount n k := Nat.div_pos (stageCount_le hn k) hpos
  have hsizes : ∀ size ∈ List.replicate (n % stageCount n k) (n / stageCount n k + 1) ++
      List.replicate (stageCount n k - n % stageCount n k) (n / stageCount n k), 0 < size := by
    intro size hsize
    rcases List.mem_append.mp hsize with h | h
    · rw [List.eq_of_mem_replicate h]
      exact Nat.succ_pos _
    · rw [List.eq_of_mem_replicate h]
      exact hquotient
  have htrail := Span.Trail.nil.consecutive hsizes
  rwa [List.append_nil, Nat.zero_add, sum_even_sizes n hpos] at htrail

/-! ## 2. Sums past the limit -/

section Excess

variable {xs : List Nat} {i j k b : Nat}

/-- A span costs no more than the sums say and what they leave out past the limit. -/
theorem stageSum_le_spanSum_add (hij : i ≤ j) (hj : j ≤ xs.length) :
    stageSum xs i j ≤ spanSum (prefixSums xs) i j + (xs.sum - Count.limit) := by
  have hspan := sum_take_add hij xs
  have hrest := sum_take_add hj xs
  rw [List.take_length] at hrest
  rw [stageSum_eq hij, spanSum_eq hij hj]
  omega

/-- **No other grouping** into as many spans in a row is better than balanced stages by more than
    what all items together are past the limit. -/
theorem balancedStages_le_add (hxs : xs ≠ []) {others : List Span}
    (hothers : Span.Trail others.reverse xs.length)
    (hlength : others.length = stageCount xs.length k)
    (hb : ∀ s ∈ others, Count.sum (s.slice xs) ≤ b) :
    ∀ s ∈ balancedStages xs k, Count.sum (s.slice xs) ≤ b + (xs.sum - Count.limit) := by
  have hsums := prefixSums_ne_nil xs
  have hlt : xs.length < (prefixSums xs).length := by
    rw [length_prefixSums]
    exact Nat.lt_succ_self _
  obtain ⟨c, hc⟩ := exists_cut_balanced hxs k
  obtain ⟨htrail, -, hcost⟩ := Row.trail_of_cut hsums hlt hc
  -- the sums never say too much, so the other grouping keeps the bound by them as well
  have hgroups : Groupable (spanSum (prefixSums xs)) b (stageCount xs.length k) xs.length := by
    rw [← hlength, ← List.length_reverse]
    refine .of_trail hothers fun s hs => ?_
    obtain ⟨hs1, hs2⟩ := hothers.mem hs
    exact Nat.le_trans (spanSum_le (Nat.le_of_lt hs1) hs2) (hb s (List.mem_reverse.mp hs))
  have hslowest : c.slowest ≤ b := ((Row.right_of hsums _).some _ hlt c hc).least b hgroups
  intro s hs
  rw [balancedStages_eq hxs, List.mem_reverse] at hs
  obtain ⟨hs1, hs2⟩ := htrail.mem hs
  have hspan : stageSum xs s.start s.stop ≤ _ := stageSum_le_spanSum_add (Nat.le_of_lt hs1) hs2
  have hcut := hcost s hs
  exact Nat.le_trans hspan (by omega)

end Excess

/-! ## 3. Latency and interval -/

variable {parts : List Metrics} {stages : List Span} {xs : List Nat}

/-- The cycles of the slowest stage, or of all parts where there are no stages. -/
def pace (xs : List Nat) (stages : List Span) : Nat :=
  if stages.length ≤ 1 then Count.sum xs else (stageSums xs stages).foldl max 0

theorem interval_sequential (parts : List Metrics) :
    (compose .sequential parts).interval = (compose .sequential parts).latency := by
  cases parts <;> rfl

/-- Known latencies at the same time: the slowest one is the interval. -/
theorem interval_dataflow (h : parts.map Metrics.latency = xs.map Cycles.known) :
    (compose .dataflow parts).interval = .known (xs.foldl max 0) := by
  cases parts with
  | nil =>
      obtain rfl : xs = [] := by simpa using h.symm
      rfl
  | cons first rest =>
      cases xs with
      | nil => cases h
      | cons x xs =>
          obtain ⟨hfirst, hrest⟩ := List.cons.inj h
          show rest.foldl (fun c p => c.max p.latency) first.latency = _
          rw [hfirst, List.foldl_cons, Nat.zero_max]
          exact foldl_known (fun _ _ => rfl) x hrest

/-- **Known latencies in stages**: the interval is the pace, -/
theorem interval_composeStages (h : parts.map Metrics.latency = xs.map Cycles.known)
    (hx : ∀ x ∈ xs, x ≤ Count.limit) (stages : List Span) :
    (composeStages parts stages).interval = .known (pace xs stages) := by
  unfold composeStages pace
  by_cases hone : stages.length ≤ 1
  · rw [if_pos hone, if_pos hone, interval_sequential]
    exact latency_sequential h hx
  · rw [if_neg hone, if_neg hone]
    exact interval_dataflow (latencies_stages h hx stages)

/-- and the latency is the pace with the skew of the stages. -/
theorem latency_eq_pace (h : parts.map Metrics.latency = xs.map Cycles.known)
    (hx : ∀ x ∈ xs, x ≤ Count.limit) (stages : List Span) :
    (composeStages parts stages).latency = .known (if stages.length ≤ 1 then pace xs stages
      else Count.add (pace xs stages) (Count.mul stageSkew (stages.length - 1))) := by
  rw [latency_composeStages h hx, pace]
  by_cases hone : stages.length ≤ 1
  · simp only [if_pos hone]
  · simp only [if_neg hone]

theorem length_balancedStages (xs : List Nat) (k : Nat) :
    (balancedStages xs k).length = stageCount xs.length k :=
  (balancedStages_slices xs xs rfl k).2

/-- Balanced stages keep the pace of even ones, but for what is past the limit. -/
theorem pace_balancedStages_le (xs : List Nat) (k : Nat) :
    pace xs (balancedStages xs k) ≤
      pace xs (evenStages xs.length k) + (xs.sum - Count.limit) := by
  unfold pace
  rw [length_balancedStages, length_evenStages]
  by_cases hone : stageCount xs.length k ≤ 1
  · rw [if_pos hone, if_pos hone]
    exact Nat.le_add_right _ _
  · rw [if_neg hone, if_neg hone]
    have hxs : xs ≠ [] := by
      rintro rfl
      exact hone (Nat.min_le_right _ _)
    have heven : ∀ s ∈ evenStages xs.length k, Count.sum (s.slice xs) ≤
        (stageSums xs (evenStages xs.length k)).foldl max 0 := fun s hs =>
      (foldl_max_le_iff.mp (Nat.le_refl _)).2 _ (List.mem_map_of_mem hs)
    have hbalanced := balancedStages_le_add hxs
      (trail_evenStages (List.length_pos_iff.mpr hxs) k) (length_evenStages xs.length k) heven
    refine foldl_max_le_iff.mpr ⟨Nat.zero_le _, fun y hy => ?_⟩
    obtain ⟨s, hs, rfl⟩ := List.mem_map.mp hy
    exact hbalanced s hs

/-- **Balancing never slows down by more than the excess.** For parts whose latencies are known and
    any number of stages, latency and interval of the whole are known with balanced stages and with
    even ones, and the former are larger by no more than what the latencies together are past the
    limit of counts. Within the limit, they are not larger. -/
theorem composeStages_balanced_le (h : parts.map Metrics.latency = xs.map Cycles.known)
    (hx : ∀ x ∈ xs, x ≤ Count.limit) (k : Nat) :
    ∃ latency interval latency' interval',
      (composeStages parts (balancedStages xs k)).latency = .known latency ∧
      (composeStages parts (balancedStages xs k)).interval = .known interval ∧
      (composeStages parts (evenStages parts.length k)).latency = .known latency' ∧
      (composeStages parts (evenStages parts.length k)).interval = .known interval' ∧
      latency ≤ latency' + (xs.sum - Count.limit) ∧
      interval ≤ interval' + (xs.sum - Count.limit) := by
  have hlength : parts.length = xs.length := by
    have := congrArg List.length h
    rwa [List.length_map, List.length_map] at this
  rw [hlength]
  have hpace := pace_balancedStages_le xs k
  refine ⟨_, _, _, _, latency_eq_pace h hx _, interval_composeStages h hx _,
    latency_eq_pace h hx _, interval_composeStages h hx _, ?_, hpace⟩
  rw [length_balancedStages, length_evenStages]
  by_cases hone : stageCount xs.length k ≤ 1
  · rw [if_pos hone, if_pos hone]
    exact hpace
  · rw [if_neg hone, if_neg hone]
    unfold Count.add
    omega

/-- Parts of some numbers of cycles that need no hardware. -/
def bareParts (xs : List Nat) : List Metrics :=
  xs.map fun n => { latency := .known n, interval := .known n, resources := {} }

/-- One slow part and three fast ones in two stages. -/
theorem composeStages_balanced_le_slowFirst :
    (bareParts [10, 1, 1, 1]).map Metrics.latency = [10, 1, 1, 1].map Cycles.known ∧
    (∀ x ∈ [10, 1, 1, 1], x ≤ Count.limit) ∧
    ∃ latency interval latency' interval',
      (composeStages (bareParts [10, 1, 1, 1]) (balancedStages [10, 1, 1, 1] 2)).latency =
        .known latency ∧
      (composeStages (bareParts [10, 1, 1, 1]) (balancedStages [10, 1, 1, 1] 2)).interval =
        .known interval ∧
      (composeStages (bareParts [10, 1, 1, 1]) (evenStages 4 2)).latency = .known latency' ∧
      (composeStages (bareParts [10, 1, 1, 1]) (evenStages 4 2)).interval = .known interval' ∧
      latency ≤ latency' + ([10, 1, 1, 1].sum - Count.limit) ∧
      interval ≤ interval' + ([10, 1, 1, 1].sum - Count.limit) :=
  have hlatencies : (bareParts [10, 1, 1, 1]).map Metrics.latency =
      [10, 1, 1, 1].map Cycles.known := by decide
  have hlimit : ∀ x ∈ [10, 1, 1, 1], x ≤ Count.limit := by decide
  ⟨hlatencies, hlimit, composeStages_balanced_le hlatencies hlimit 2⟩

/-! ## 4. Three loops -/

namespace Overlong

/-- A loop of some number of iterations. -/
def sweep (iv : String) (trip : Nat) : Loop := { iv := iv, trip := .static trip }

/-- One sum. -/
def body : Block where
  ops := [⟨.add, 32⟩]

/-- The function in two stages, balanced or even. -/
def function (balance : Bool) : Func := { name := "top", directives := ⟨2, balance⟩ }

/-- Three loops in two stages, which together run longer than can be counted. -/
def listing (balance : Bool) : Listing where
  name := "overlong"
  records :=
    [⟨⟨0, .func (function balance), none⟩, none⟩,
     ⟨⟨1, .loop (sweep "i" (2 ^ 63)), none⟩, some 0⟩, ⟨⟨2, .block body, none⟩, some 1⟩,
     ⟨⟨3, .loop (sweep "j" (2 ^ 62)), none⟩, some 0⟩, ⟨⟨4, .block body, none⟩, some 3⟩,
     ⟨⟨5, .loop (sweep "k" (2 ^ 63 + 2 ^ 62)), none⟩, some 0⟩, ⟨⟨6, .block body, none⟩, some 5⟩]
  arrays := []

/-- The function as a tree. -/
def design (balance : Bool) : Design where
  name := "overlong"
  root := ⟨0, .func (function balance), none⟩
  below :=
    .cons ⟨1, .loop (sweep "i" (2 ^ 63)), none⟩ (.cons ⟨2, .block body, none⟩ .nil .nil)
      (.cons ⟨3, .loop (sweep "j" (2 ^ 62)), none⟩ (.cons ⟨4, .block body, none⟩ .nil .nil)
        (.cons ⟨5, .loop (sweep "k" (2 ^ 63 + 2 ^ 62)), none⟩
          (.cons ⟨6, .block body, none⟩ .nil .nil) .nil))
  arrays := []

/-- **Balancing makes the function slower**: the first stage holds one loop instead of two, and the
    second one takes as long as can be counted. -/
theorem slower_balanced :
    (∀ balance, (listing balance).design = .ok (design balance)) ∧
    ∃ balanced a even b,
      (Estimator.new none {}).run ⟨design true, .empty⟩ = .ok (balanced, a) ∧
      (Estimator.new none {}).run ⟨design false, .empty⟩ = .ok (even, b) ∧
      balanced.metrics.latency = .known Count.limit ∧
      balanced.metrics.interval = .known Count.limit ∧
      even.metrics.latency = .known (2 ^ 63 + 2 ^ 62 + 2) ∧
      even.metrics.interval = .known (2 ^ 63 + 2 ^ 62) := by
  have hlisting : ∀ balance, (listing balance).design = .ok (design balance) := by
    decide +kernel
  have hrun : ∀ balance, (Estimator.new none {}).run ⟨design balance, .empty⟩ = .ok (_, _) :=
    fun balance =>
      Estimator.run_eq_ok_iff.mpr ⟨(Listing.tree_of_design (hlisting balance)).2, rfl, rfl⟩
  refine ⟨hlisting, _, _, _, _, hrun true, hrun false, ?_, ?_, ?_, ?_⟩ <;> decide +kernel

end Overlong

end DesignSpace
