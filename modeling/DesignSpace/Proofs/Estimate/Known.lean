/-
  Subject:   WHERE THE LATENCY IS KNOWN. What is unknown of a part is unknown of the whole, and
             nothing else is: the only cycles without a number are those of a loop that is not
             bounded. A pipelined loop is priced with no look at the metrics of its parts, so there
             it takes the rule that all loops below it are bounded.

  * `Cycles.IsKnown`: there is a number;
  * `known_composeStages_iff`: the whole is known where all parts are, however they are grouped;
  * `Estimator.known_combine_iff`: one region, from its parts;
  * `Estimator.known_fresh_iff`: **the regions of a forest are known where its loops are bounded**;
  * `Estimator.known_run_iff`: the same for every entry that a run leaves.
-/
import DesignSpace.Proofs.Design.WellFormed
import DesignSpace.Proofs.Estimate.Compose

namespace DesignSpace

/-! ## 1. Cycles -/

/-- There is a number. -/
def Cycles.IsKnown (c : Cycles) : Prop := ∃ k, c = .known k

namespace Cycles

variable {a b : Cycles}

theorem isKnown_known (k : Nat) : (known k).IsKnown := ⟨k, rfl⟩

theorem not_isKnown_unknown : ¬ unknown.IsKnown := nofun

theorem isKnown_iff : a.IsKnown ↔ a ≠ unknown := by
  cases a with
  | known k => exact iff_of_true (isKnown_known k) nofun
  | unknown => exact iff_of_false not_isKnown_unknown fun h => h rfl

theorem isKnown_add : (a.add b).IsKnown ↔ a.IsKnown ∧ b.IsKnown := by
  rw [isKnown_iff, isKnown_iff, isKnown_iff, ne_eq, add_eq_unknown_iff, not_or]

theorem isKnown_max : (a.max b).IsKnown ↔ a.IsKnown ∧ b.IsKnown := by
  rw [isKnown_iff, isKnown_iff, isKnown_iff, ne_eq, max_eq_unknown_iff, not_or]

theorem isKnown_add_known (k : Nat) : (a.add (.known k)).IsKnown ↔ a.IsKnown :=
  isKnown_add.trans (and_iff_left (isKnown_known k))

theorem isKnown_scale (factor : Nat) : (a.scale factor).IsKnown ↔ a.IsKnown := by
  cases a with
  | known k => exact iff_of_true ⟨_, rfl⟩ ⟨k, rfl⟩
  | unknown => exact Iff.rfl

end Cycles

/-! ## 2. Parts and the whole -/

variable {parts : List Metrics}

/-- Cycles taken together are known where each of them is. -/
theorem known_foldl_iff {f : Cycles → Cycles → Cycles}
    (hf : ∀ {x y : Cycles}, (f x y).IsKnown ↔ x.IsKnown ∧ y.IsKnown) (c : Cycles) :
    (parts.foldl (fun c p => f c p.latency) c).IsKnown ↔
      c.IsKnown ∧ ∀ p ∈ parts, p.latency.IsKnown := by
  induction parts generalizing c with
  | nil => simp
  | cons p parts ih => rw [List.foldl_cons, ih, hf, List.forall_mem_cons, and_assoc]

theorem known_compose_iff (kind : Composition) :
    (compose kind parts).latency.IsKnown ↔ ∀ p ∈ parts, p.latency.IsKnown := by
  cases parts with
  | nil => exact iff_of_true (Cycles.isKnown_known 0) nofun
  | cons first rest =>
      rw [List.forall_mem_cons]
      cases kind with
      | sequential => exact known_foldl_iff Cycles.isKnown_add first.latency
      | dataflow =>
          exact (Cycles.isKnown_add_known _).trans (known_foldl_iff Cycles.isKnown_max _)

/-- **The whole is known where all its parts are**, in stages that make up the parts. -/
theorem known_composeStages_iff {stages : List Span}
    (hstages : stages.flatMap (fun s => s.slice parts) = parts) :
    (composeStages parts stages).latency.IsKnown ↔ ∀ p ∈ parts, p.latency.IsKnown := by
  unfold composeStages
  by_cases hone : stages.length ≤ 1
  · rw [if_pos hone]
    exact known_compose_iff .sequential
  · rw [if_neg hone, known_compose_iff, List.forall_mem_map]
    have hstage : (∀ s ∈ stages, (compose .sequential (s.slice parts)).latency.IsKnown) ↔
        ∀ p ∈ stages.flatMap fun s => s.slice parts, p.latency.IsKnown := by
      simp only [known_compose_iff, List.mem_flatMap]
      exact ⟨fun h p ⟨s, hs, hp⟩ => h s hs p hp, fun h s hs p hp => h p ⟨s, hs, hp⟩⟩
    rw [hstage, hstages]

/-! ## 3. Bounded loops -/

/-- All loops of a forest are known to run a number of times. -/
def Forest.Bounded (f : Forest) : Prop := ∀ l ∈ f.loops, l.trip.bounded.isSome

/-- The loops below a pipelined loop are bounded. -/
def Nest.Pipelinable (n : Nest) : Prop := n.region.isPipelined = true → n.below.Bounded

variable {e : Estimator} {d : Design} {c : Context} {f : Forest} {n : Nest} {l : Loop}

theorem Forest.bounded_nil : Forest.nil.Bounded := nofun

theorem Forest.bounded_cons (r : Region) (below after : Forest) :
    (cons r below after).Bounded ↔
      (∀ l, r.loop? = some l → l.trip.bounded.isSome) ∧ below.Bounded ∧ after.Bounded := by
  unfold Bounded loops
  rw [regions_cons, List.filterMap_cons, List.filterMap_append]
  cases r.loop? <;> simp [or_imp, forall_and]

/-- A region that is no loop is bounded where what is below it is. -/
theorem Nest.bounded_of_loop?_eq_none (h : n.region.loop? = none) :
    n.toForest.Bounded ↔ n.below.Bounded := by
  rw [toForest, Forest.bounded_cons, h]
  simp [Forest.bounded_nil]

theorem Nest.bounded_of_loop?_eq_some (h : n.region.loop? = some l) :
    n.toForest.Bounded ↔ l.trip.bounded.isSome ∧ n.below.Bounded := by
  rw [toForest, Forest.bounded_cons, h]
  simp [Forest.bounded_nil]

/-- A block is no loop. -/
theorem Region.loop?_of_block? {r : Region} (h : r.block?.isSome) : r.loop? = none := by
  obtain ⟨id, kind, composition⟩ := r
  cases kind with
  | block => rfl
  | loop => cases h
  | func => rfl
  | dataflow => rfl

/-- Nothing but blocks is below an innermost loop, so no loop is. -/
theorem Forest.bounded_of_blocks (hf : f.Leafy) (hblocks : ∀ n ∈ f.roots, n.region.block?.isSome) :
    f.Bounded := by
  induction f with
  | nil => exact bounded_nil
  | cons r below after _ iha =>
      have hr : r.block?.isSome := hblocks ⟨r, below⟩ List.mem_cons_self
      have hafter : after.Bounded := iha hf.ofAfter fun n hn =>
        hblocks n (List.mem_cons_of_mem _ hn)
      rw [bounded_cons, hf.leaf hr, Region.loop?_of_block? hr]
      refine ⟨fun l hl => ?_, bounded_nil, hafter⟩
      cases hl

theorem Nest.innerLoopsStatic_iff_bounded : n.innerLoopsStatic = true ↔ n.below.Bounded := by
  rw [innerLoopsStatic, List.all_eq_true, Forest.Bounded]

/-- A design that keeps the rules pipelines no loop above one that is not bounded. -/
theorem Design.pipelinable_of_check (hc : d.check = .ok ()) (hn : n ∈ d.forest.nests) :
    n.Pipelinable := by
  intro hp
  unfold Region.isPipelined Region.loop? at hp
  cases hk : n.region.kind with
  | loop l =>
      rw [hk] at hp
      have hcheck := (checkNest_loop_iff hk).mp ((check_eq_ok_iff.mp hc).2.2 n hn)
      exact Nest.innerLoopsStatic_iff_bounded.mp ((Loop.check_eq_ok_iff.mp hcheck).2.1 hp)
  | _ => simp [hk] at hp

/-- The loops of a forest are bounded where each has a number of iterations that is not zero. -/
theorem Forest.bounded_iff : f.Bounded ↔ ∀ l ∈ f.loops, ∃ k, l.trip = .static k ∧ k ≠ 0 := by
  refine forall₂_congr fun l _ => ?_
  rw [Option.isSome_iff_exists]
  refine exists_congr fun k => ?_
  rw [← Trip.fixed_iff, Trip.Fixed, Nat.pos_iff_ne_zero]

/-! ## 4. One region -/

namespace Estimator

theorem known_flatLoopMetrics (m : CostModel) (arrays : List ArrayDecl)
    (hl : n.region.loop? = some l) :
    (m.flatLoopMetrics arrays c n).latency.IsKnown ↔ l.trip.bounded.isSome := by
  unfold CostModel.flatLoopMetrics
  rw [hl]
  dsimp only
  rw [Loop.effectiveTile]
  cases l.trip.bounded with
  | none => exact iff_of_false Cycles.not_isKnown_unknown Bool.false_ne_true
  | some trip => exact iff_of_true (Cycles.isKnown_known _) rfl

theorem known_outerLoopMetrics (arrays : List ArrayDecl) (hl : n.region.loop? = some l)
    (body : Metrics) :
    (CostModel.outerLoopMetrics arrays c n body).latency.IsKnown ↔
      l.trip.bounded.isSome ∧ body.latency.IsKnown := by
  unfold CostModel.outerLoopMetrics
  rw [hl]
  dsimp only
  rw [Loop.effectiveTile]
  cases l.trip.bounded with
  | none => exact iff_of_false Cycles.not_isKnown_unknown fun h => Bool.false_ne_true h.1
  | some trip =>
      have hscale := (Cycles.isKnown_scale (trip / l.directives.tile.getD trip)).trans
        ((Cycles.isKnown_add_known (l.tileOverhead (c.tileBuffers arrays n))).trans
          (Cycles.isKnown_scale (a := body.latency)
            (l.directives.tile.getD trip / max l.directives.unroll 1)))
      exact hscale.trans ⟨fun h => ⟨rfl, h⟩, And.right⟩

/-- A loop is known where it is bounded, and the loops below it are. -/
theorem known_combine_loop (hk : n.region.kind = .loop l) (hbelow : n.below.Leafy)
    (hpipe : n.Pipelinable) (hparts : (∀ p ∈ parts, p.latency.IsKnown) ↔ n.below.Bounded) :
    (e.combine d c n parts).latency.IsKnown ↔ l.trip.bounded.isSome ∧ n.below.Bounded := by
  have hl : n.region.loop? = some l := by rw [Region.loop?, hk]
  have hcombine : e.combine d c n parts =
      if l.directives.pipeline || n.isInnermostLoop then e.model.flatLoopMetrics d.arrays c n
      else CostModel.outerLoopMetrics d.arrays c n (composeStages parts (stagesOf n parts)) := by
    rw [combine, hk]
  rw [hcombine]
  by_cases hflat : (l.directives.pipeline || n.isInnermostLoop) = true
  · -- The flat body hides the parts, but what is below is bounded in both cases.
    have hbounded : n.below.Bounded := by
      rcases Bool.or_eq_true_iff.mp hflat with hp | hinner
      · exact hpipe (by rw [Region.isPipelined, hl]; exact hp)
      · unfold Nest.isInnermostLoop at hinner
        exact Forest.bounded_of_blocks hbelow fun m hm =>
          List.all_eq_true.mp (Bool.and_eq_true_iff.mp hinner).2 m hm
    rw [if_pos hflat, known_flatLoopMetrics _ _ hl]
    exact (and_iff_left hbounded).symm
  · rw [if_neg hflat, known_outerLoopMetrics _ hl,
      known_composeStages_iff (stagesOf_slices n parts).1, hparts]

/-- A function or a dataflow node is known where its parts are. -/
theorem known_scopeMetrics (parts : List Metrics) (controllers : Nat) :
    (scopeMetrics d n parts controllers).latency.IsKnown ↔ ∀ p ∈ parts, p.latency.IsKnown :=
  known_composeStages_iff (stagesOf_slices n parts).1

/-- **One region**: it is known where its loops are bounded, if its parts are known where theirs
    are. -/
theorem known_combine_iff (hleaf : n.region.block?.isSome → n.below = .nil)
    (hbelow : n.below.Leafy) (hpipe : n.Pipelinable)
    (hparts : (∀ p ∈ parts, p.latency.IsKnown) ↔ n.below.Bounded) :
    (e.combine d c n parts).latency.IsKnown ↔ n.toForest.Bounded := by
  cases hk : n.region.kind with
  | block b =>
      have hnil : n.below = .nil := hleaf (by rw [Region.block?, hk]; rfl)
      rw [Nest.bounded_of_loop?_eq_none (by rw [Region.loop?, hk]), combine, hk, hnil]
      exact iff_of_true (Cycles.isKnown_known _) Forest.bounded_nil
  | loop l =>
      rw [Nest.bounded_of_loop?_eq_some (by rw [Region.loop?, hk])]
      exact known_combine_loop hk hbelow hpipe hparts
  | func f =>
      rw [Nest.bounded_of_loop?_eq_none (by rw [Region.loop?, hk]), ← hparts, combine, hk]
      exact known_scopeMetrics parts 1
  | dataflow =>
      rw [Nest.bounded_of_loop?_eq_none (by rw [Region.loop?, hk]), ← hparts, combine, hk]
      exact known_scopeMetrics parts 0

/-! ## 5. Forests and designs -/

/-- **The regions of a forest are known where its loops are bounded.** -/
theorem known_fresh_iff (hf : f.Leafy) (hpipe : ∀ n ∈ f.nests, n.Pipelinable) :
    (∀ p ∈ e.fresh d c f, p.latency.IsKnown) ↔ f.Bounded := by
  induction f generalizing c with
  | nil => exact iff_of_true nofun Forest.bounded_nil
  | cons r below after ihb iha =>
      have hbelow : ∀ n ∈ below.nests, n ∈ (Forest.cons r below after).nests := fun n hn => by
        simp [Forest.nests, hn]
      have hafter : ∀ n ∈ after.nests, n ∈ (Forest.cons r below after).nests := fun n hn => by
        simp [Forest.nests, hn]
      have hparts := ihb (c := c.enter d.arrays ⟨r, below⟩) hf.ofBelow
        fun n hn => hpipe n (hbelow n hn)
      have hfirst := known_combine_iff (e := e) (d := d) (c := c) (n := ⟨r, below⟩) hf.leaf
        hf.ofBelow (hpipe _ List.mem_cons_self) hparts
      have hrest := iha (c := c) hf.ofAfter fun n hn => hpipe n (hafter n hn)
      have hsplit : (Forest.cons r below after).Bounded ↔
          (Nest.mk r below).toForest.Bounded ∧ after.Bounded := by
        rw [Nest.toForest, Forest.bounded_cons, Forest.bounded_cons]
        simp [Forest.bounded_nil, and_assoc]
      rw [fresh, List.forall_mem_cons, hfirst, hrest, hsplit]

/-- The estimate of a region of a design that keeps the rules is known where the loops of its nest
    are bounded. -/
theorem known_estimate_iff (hc : d.check = .ok ()) (hn : n ∈ d.forest.nests) :
    (e.estimate d c n).metrics.latency.IsKnown ↔ n.toForest.Bounded := by
  have hleafy := Design.leafy_of_check hc
  exact known_combine_iff (hleafy n hn) (hleafy.ofNest hn) (Design.pipelinable_of_check hc hn)
    (known_fresh_iff (hleafy.ofNest hn) fun m hm =>
      Design.pipelinable_of_check hc (Forest.nests_below_subset hn m hm))

/-- **The latency is unknown exactly where it must be.** Any estimate of a listing's design from
    nothing succeeds, and leaves metrics for every region. Their latency is a number exactly if
    every loop in the nest of the region, the region itself included, has a trip count that is a
    number other than zero. -/
theorem known_run_iff {l : Listing} (hd : l.design = .ok d) (e : Estimator) (t : Table) :
    ∃ summary a, e.run ⟨d, t⟩ = .ok (summary, a) ∧ ∀ id n, d.find? id = some n →
      ∃ m, a.table.metrics? id = some m ∧
        ((∃ k, m.latency = .known k) ↔
          ∀ lp ∈ n.toForest.loops, ∃ k, lp.trip = .static k ∧ k ≠ 0) := by
  have hdistinct := Listing.nodup_of_design hd
  have hc := (Listing.tree_of_design hd).2
  have hrun : e.run ⟨d, t⟩ = .ok (_, _) := run_eq_ok_iff.mpr ⟨hc, rfl, rfl⟩
  obtain ⟨hcomplete, hdesign⟩ := complete_run (a := ⟨d, t⟩) hdistinct hrun
  refine ⟨_, _, hrun, fun id n hn => ?_⟩
  have hentry := hcomplete.full id
  rw [hdesign, estimate?, hn] at hentry
  refine ⟨_, congrArg (Option.map Estimate.metrics) hentry, ?_⟩
  rw [← Forest.bounded_iff]
  exact known_estimate_iff hc (Forest.find?_mem hn).1

/-- Both loops of a function run sixteen times, and the latency of the function is known. -/
theorem known_run_smoothing : Smoothing.listing.design = .ok Smoothing.design ∧
    Smoothing.design.forest.loops.map Loop.trip = [.static 16, .static 16] ∧
    ∃ summary a, (Estimator.new none {}).run ⟨Smoothing.design, .empty⟩ = .ok (summary, a) ∧
      ∀ id n, Smoothing.design.find? id = some n → ∃ m, a.table.metrics? id = some m ∧
        ((∃ k, m.latency = .known k) ↔
          ∀ lp ∈ n.toForest.loops, ∃ k, lp.trip = .static k ∧ k ≠ 0) :=
  ⟨Smoothing.design_listing, by decide +kernel,
    known_run_iff Smoothing.design_listing (Estimator.new none {}) .empty⟩

end Estimator

end DesignSpace
