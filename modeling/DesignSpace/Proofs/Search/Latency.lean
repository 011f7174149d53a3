/-
  Subject:   A SEARCH THAT STARTS WITHIN ITS BUDGETS MAKES NO DESIGN SLOWER, as long as the banks of
             an array that has several matter nowhere but in the region whose lifetime the array
             shares. A level is judged by its own latency; that of the root follows.

  * `Design.Shelters`: a level whose arrays matter nowhere else, where they have several banks;
  * `LevelRun.Steady`: what holds between two trials; `LevelRun.Steady.ofTrial`: **one trial**;
  * `Progress.Sound.latencyAt_searchLevel`: **a level becomes no slower by its search**;
  * `Progress.Steady`: what holds between two levels; `Progress.Steady.searchLevel`: **neither does
    the root**;
  * `Explorer.latency_explore_le`: **the whole search**;
  * `Shared.slower`, `Enclosed.slower_bottomUp`, `Enclosed.slower_topDown`: designs that a search
    makes slower, one for each thing that is asked for.
-/
import DesignSpace.Proofs.Search.Levels
import DesignSpace.Proofs.Search.Writes

namespace DesignSpace

variable {spec : TargetSpec} {d c c' : Design} {level : RegionId} {kept ahead : List RegionId}

/-! ## 1. Sheltered arrays -/

namespace Design

/-- **A level whose arrays matter nowhere else**, if they have more than one bank: they are accessed
    below the level only, and there is either no loop around the level, or none that is pipelined.
    The second may change on the way; the regions in `kept` are those for which it does not. -/
structure Shelters (d : Design) (kept : List RegionId) (level : RegionId) : Prop where
  confined : ∀ a ∈ d.arrays, d.scopeOf a = level → 1 < a.partition → d.Confined a
  around : ∀ a ∈ d.arrays, d.scopeOf a = level → 1 < a.partition →
    (∀ n ∈ d.above level, n.region.loop? = none) ∨ level ∈ kept ∧ d.buried level = false

theorem Confined.of_bare {a b : ArrayDecl} (hb : d.Confined b) (h : c.bare = d.bare)
    (hab : a.bare = b.bare) : c.Confined a := by
  intro n hn hx
  have hforest := forest_of_bare h
  have hname : a.bare.name = b.bare.name := by rw [hab]
  have hname : a.name = b.name := hname
  obtain ⟨m, hm, hmn⟩ := exists_nest_of_bare hforest hn
  have hregion : m.region.bare = n.region.bare := congrArg Nest.region hmn
  have hid : m.region.id = n.region.id := by
    rw [← directing_bare.id_eq m.region, hregion, directing_bare.id_eq]
  have hacc : m.region.accesses = n.region.accesses := by
    rw [← Region.accesses_bare m.region, hregion, Region.accesses_bare]
  rw [subtree_of_bare hforest, scopeOf_of_bare h hab, ← hid]
  exact hb m hm (by rwa [hacc, ← hname])

/-- Where no loop is around a region, none becomes pipelined. -/
theorem not_buried_of_no_loop (h : c.bare = d.bare)
    (hd : ∀ n ∈ d.above level, n.region.loop? = none) : c.buried level = false := by
  refine List.any_eq_false.mpr fun n hn => ?_
  have hmem : n.map Region.bare ∈ (d.above level).map (Nest.map Region.bare) := by
    rw [← above_of_bare (forest_of_bare h)]
    exact List.mem_map_of_mem hn
  obtain ⟨m, hm, hmn⟩ := List.mem_map.mp hmem
  have hregion : m.region.bare = n.region.bare := congrArg Nest.region hmn
  have hloop : n.region.loop?.isSome = m.region.loop?.isSome := by
    rw [← directing_bare.loop?_isSome_eq n.region, ← hregion, directing_bare.loop?_isSome_eq]
  rw [hd m hm] at hloop
  have hnone : n.region.loop? = none := by
    cases hl : n.region.loop? with
    | none => rfl
    | some l => rw [hl] at hloop; cases hloop
  rw [Region.isPipelined, hnone]
  exact Bool.false_ne_true

/-- The regions that stay out of pipelined loops. -/
def StillOpen (kept : List RegionId) (d c : Design) : Prop :=
  ∀ j ∈ kept, d.buried j = false → c.buried j = false

/-- **A level that shelters its arrays**, in a design that the search has come to. -/
theorem Shelters.not_buried (hs : d.Shelters kept level) (h : c.bare = d.bare)
    (hopen : StillOpen kept d c) {a : ArrayDecl} (ha : a ∈ d.arrays) (hscope : d.scopeOf a = level)
    (hbanks : 1 < a.partition) : c.Confined a ∧ c.buried level = false := by
  refine ⟨(hs.confined a ha hscope hbanks).of_bare h rfl, ?_⟩
  rcases hs.around a ha hscope hbanks with hnone | ⟨hkept, hburied⟩
  · exact not_buried_of_no_loop h hnone
  · exact hopen level hkept hburied

theorem Alike.buried_eq (h : c.Alike c') (j : RegionId) : c'.buried j = c.buried j := by
  have hplain : ∀ r : Region, r.plain.isPipelined = r.isPipelined := by
    intro r
    obtain ⟨i, k, o⟩ := r
    cases k <;> rfl
  have habove : ∀ d : Design, d.buried j =
      ((Forest.above j (d.forest.map Region.plain)).getD []).any fun n => n.region.isPipelined := by
    intro d
    rw [Forest.above_map directing_plain.id_eq, buried, above]
    cases Forest.above j d.forest with
    | none => rfl
    | some path =>
        show path.any _ = (path.map (Nest.map Region.plain)).any _
        rw [List.any_map]
        exact congrArg path.any (funext fun n => (hplain n.region).symm)
  rw [habove, habove, h.forest]

/-- What changes at a level leaves open what the level is not around. -/
theorem EditedAt.buried_eq (h : d.EditedAt c level) (hd : d.preorder.Nodup) {j : RegionId}
    (hj : level ∉ d.ancestors j) : c.buried j = d.buried j := by
  have hmap := Forest.map_counterpart (h.nodup hd) (forest_of_bare h.bare)
  have habove : c.above j = (d.above j).map (Nest.map c.forest.counterpart) := by
    rw [above, ← hmap, Forest.above_map (Forest.directing_counterpart _).id_eq, hmap, above]
    cases Forest.above j d.forest <;> rfl
  rw [buried, habove, List.any_map, buried]
  refine Bool.eq_iff_iff.mpr ?_
  rw [List.any_eq_true, List.any_eq_true]
  refine exists_congr fun n => and_congr_right fun hn => ?_
  have hne : n.region.id ≠ level := fun heq =>
    hj (heq ▸ List.mem_reverse.mpr (List.mem_map_of_mem hn))
  show (c.forest.counterpart n.region).isPipelined = true ↔ _
  rw [h.counterpart_eq hd (mem_of_mem_above hn).1 hne]

end Design

/-! ## 2. One level -/

/-- Of two candidates that fit, the better one makes the level no slower. -/
theorem Candidate.atMost_of_improvesOn {x best : Candidate} (h : x.improvesOn best = true)
    (hbest : best.feasible = true) : x.levelLatency.AtMost best.levelLatency := by
  have hfaster : x.fasterThan best = true := by
    have hx := feasible_of_improvesOn h hbest
    unfold improvesOn at h
    rwa [hx, hbest] at h
  intro n hn
  unfold fasterThan at hfaster
  rw [hn] at hfaster
  cases hlatency : x.levelLatency with
  | unknown => rw [hlatency] at hfaster; cases hfaster
  | known k =>
      rw [hlatency] at hfaster
      refine ⟨k, ?_, rfl⟩
      rcases Bool.or_eq_true_iff.mp hfaster with hlt | heq
      · exact Nat.le_of_lt (of_decide_eq_true hlt)
      · exact Nat.le_of_eq (of_decide_eq_true (Bool.and_eq_true_iff.mp heq).1)

/-- What a complete table tells of a level. -/
theorem Explorer.levelLatency_candidate {x : Explorer} {a : Annotated} {e : Estimator}
    (ha : a.Complete e) (root : Metrics) (move : Option Move) :
    (x.candidate level a root move).levelLatency = e.latencyAt a.design level := by
  show ((a.table.metrics? level).map Metrics.latency).getD .unknown = _
  rw [Table.metrics?, ha.full level, Estimator.latencyAt]
  cases e.estimate? a.design level <;> rfl

theorem Design.Alike.latencyAt_eq (h : c.Alike c') (e : Estimator) (id : RegionId) :
    e.latencyAt c' id = e.latencyAt c id := by
  rw [Estimator.latencyAt, h.estimate?_eq, Estimator.latencyAt]

/-- **What holds between two trials** at a level of a design that fits its budgets: the best
    candidate fits, it tells the latency of the level, and that is no larger than in the design
    `first`, which the level started with. -/
structure LevelRun.Steady (spec : TargetSpec) (d first : Design) (level : RegionId)
    (run : LevelRun) : Prop where
  sound : ∃ old start, run.Sound spec d old start
  feasible : run.best.feasible = true
  tells : run.best.levelLatency = spec.estimator.latencyAt run.progress.annotated.design level
  faster : (spec.estimator.latencyAt run.progress.annotated.design level).AtMost
    (spec.estimator.latencyAt first level)

namespace LevelRun.Steady

variable {first : Design} {run : LevelRun} {o : Operator} {p : Parameter} {current s : Setting}

/-- A design that is alike takes the place of the one that stands. -/
theorem ofAlike (h : run.Steady spec d first level) {next : LevelRun}
    (hsound : ∃ old start, next.Sound spec d old start) (hbest : next.best = run.best)
    (halike : run.progress.annotated.design.Alike next.progress.annotated.design) :
    next.Steady spec d first level where
  sound := hsound
  feasible := hbest ▸ h.feasible
  tells := by rw [hbest, h.tells, halike.latencyAt_eq]
  faster := by
    rw [halike.latencyAt_eq]
    exact h.faster

/-- **One trial** makes the level no slower. -/
theorem ofTrial (h : run.Steady spec d first level) {next : LevelRun × Setting}
    (ht : run.Trial spec .standard d level o p current s next) :
    next.1.Steady spec d first level := by
  obtain ⟨old, start, hsound⟩ := h.sound
  have hnext : ∃ old start, next.1.Sound spec d old start := ⟨old, start, hsound.ofTrial ht⟩
  cases ht with
  | passed => exact h
  | refused _ halike => exact h.ofAlike hnext rfl halike
  | @tried a _ ha _ _ _ halike =>
      unfold Explorer.outcome at hnext ⊢
      dsimp only at hnext ⊢
      generalize hx : (Explorer.new spec .standard).candidate level a
        (spec.estimator.rootMetrics a.design) (some ⟨o.name, p, s⟩) = x at hnext ⊢
      by_cases hi : x.improvesOn run.best = true
      · rw [if_pos hi] at hnext ⊢
        have hlatency : x.levelLatency = spec.estimator.latencyAt a.design level := by
          rw [← hx]
          exact Explorer.levelLatency_candidate ha.complete _ _
        have hatmost := Candidate.atMost_of_improvesOn hi h.feasible
        rw [hlatency, h.tells] at hatmost
        exact ⟨hnext, Candidate.feasible_of_improvesOn hi h.feasible, hlatency,
          hatmost.trans h.faster⟩
      · rw [if_neg hi] at hnext ⊢
        exact h.ofAlike hnext rfl halike

/-- All trials at a level. -/
theorem ofReach {start : LevelRun} (h : start.Steady spec d first level)
    (hreach : Reach (Explorer.new spec .standard) d level start run) :
    run.Steady spec d first level := by
  induction hreach with
  | start => exact h
  | trial _ _ hv ih =>
      obtain ⟨old, start, hsound⟩ := ih.sound
      exact ih.ofTrial (hsound.trial_of_tryValue hv)

end LevelRun.Steady

/-- **A level becomes no slower by its search**, which ends within the budgets if it starts within
    them. -/
theorem Progress.Sound.latencyAt_searchLevel {progress : Progress} (h : progress.Sound spec d)
    (hfits : spec.target.fits (spec.estimator.rootMetrics progress.annotated.design) = true) :
    ∃ report next, (Explorer.new spec .standard).searchLevel level progress = .ok (report, next) ∧
      report.feasible = true ∧ next.Sound spec d ∧
      spec.target.fits (spec.estimator.rootMetrics next.annotated.design) = true ∧
      (spec.estimator.latencyAt next.annotated.design level).AtMost
        (spec.estimator.latencyAt progress.annotated.design level) := by
  have hself : (Explorer.new spec .standard).upkeep.refresh progress.annotated = _ :=
    h.settled.complete.refresh_eq_self
  obtain ⟨point, -, -, hfirst⟩ := @Progress.Sound.startLevel spec .standard d progress h level
  have hstart : ((Explorer.new spec .standard).startLevel level progress).Steady spec d
      progress.annotated.design level := by
    rw [Progress.Sound.startLevel_eq hself] at hfirst ⊢
    exact ⟨⟨_, point, hfirst⟩, hfits, Explorer.levelLatency_candidate h.settled.complete _ _,
      .refl _⟩
  obtain ⟨_, run, hsound, hreach, hsearch⟩ :=
    @Progress.Sound.exists_reach spec .standard d progress h level
  have hsteady := hstart.ofReach hreach
  have hfits' := hsound.fits.symm.trans hsteady.feasible
  rw [hsound.root] at hfits'
  exact ⟨_, _, hsearch, hsteady.feasible, hsound.progress, hfits', hsteady.faster⟩

/-! ## 3. One level after the other -/

/-- Of the levels to come, those around which a search leaves loops as they are: all of them where
    levels are searched from the inside. -/
def Strategy.spared : Strategy → List RegionId → List RegionId
  | .bottomUp, js => js
  | .topDown, _ => []

theorem Strategy.spared_subset (s : Strategy) (i : RegionId) (js : List RegionId) :
    s.spared js ⊆ s.spared (i :: js) := by
  intro j hj
  cases s with
  | bottomUp => exact List.mem_cons_of_mem _ hj
  | topDown => exact absurd hj List.not_mem_nil

/-- **What holds between two levels** of a search that fits its budgets, where `ahead` are the
    levels to come: the root is no slower than that of the design which the search is about, what
    has to stay out of pipelined loops does, and the arrays of the levels to come are as they
    were. -/
structure Progress.Steady (spec : TargetSpec) (d : Design) (ahead : List RegionId)
    (progress : Progress) : Prop where
  sound : progress.Sound spec d
  fits : spec.target.fits (spec.estimator.rootMetrics progress.annotated.design) = true
  root : (spec.estimator.rootMetrics progress.annotated.design).latency.AtMost
    (spec.estimator.rootMetrics d).latency
  isOpen : d.StillOpen (spec.options.strategy.spared ahead) progress.annotated.design
  untouched : ∀ a ∈ d.arrays, d.scopeOf a ∈ ahead → a ∈ progress.annotated.design.arrays

namespace Progress.Steady

variable {progress : Progress}

/-- An array of the next level that has fewer banks after its search had several to begin with. -/
theorem exists_banks (h : progress.Steady spec d (level :: ahead)) (hc : c.check = .ok ())
    {a a' : ArrayDecl} (ha : a ∈ progress.annotated.design.arrays)
    (hscope : progress.annotated.design.scopeOf a = level) (ha' : a' ∈ c.arrays)
    (hfewer : a'.partition < a.partition) :
    a ∈ d.arrays ∧ d.scopeOf a = level ∧ 1 < a.partition := by
  obtain ⟨b, hb, hba⟩ := Design.exists_array_of_bare h.sound.settled.bare ha
  have hlevel : d.scopeOf b = level :=
    (Design.scopeOf_of_bare h.sound.settled.bare hba.symm).symm.trans hscope
  have hmem := h.untouched b hb (hlevel ▸ List.mem_cons_self)
  have hname : b.bare.name = a.bare.name := congrArg ArrayDecl.name hba
  obtain rfl := List.inj_on_of_nodup_map (Design.check_eq_ok_iff.mp h.sound.settled.rules).1 hmem
    ha hname
  obtain ⟨-, -, hpos, -⟩ :=
    a'.check_eq_ok_iff.mp ((Design.check_eq_ok_iff.mp hc).2.1 a' ha').1
  exact ⟨hb, hlevel, by omega⟩

/-- **One level**: its search ends within the budgets, and makes the root no slower. -/
theorem searchLevel (h : progress.Steady spec d (level :: ahead)) (hnew : level ∉ ahead)
    (hshelter : d.Shelters (spec.options.strategy.spared (level :: ahead)) level)
    (hkept : ∀ j ∈ spec.options.strategy.spared (level :: ahead), level ∉ d.ancestors j) :
    ∃ report next, (Explorer.new spec .standard).searchLevel level progress = .ok (report, next) ∧
      report.feasible = true ∧ next.Steady spec d ahead := by
  obtain ⟨report, next, hsearch, hfeasible, hsound, hfits, hlatency⟩ :=
    @Progress.Sound.latencyAt_searchLevel spec d level progress h.sound h.fits
  obtain ⟨c, hedit, halike⟩ := h.sound.exists_editedAt hsearch
  have hsettled := h.sound.settled
  have hdistinct := hsettled.complete.distinct
  have hrules := halike.symm.check hsound.settled.rules
  rw [halike.latencyAt_eq] at hlatency
  refine ⟨report, next, hsearch, hfeasible, hsound, hfits, ?_, fun j hj hb => ?_,
    fun a ha hahead => ?_⟩
  · rw [halike.rootMetrics_eq]
    refine (Estimator.rootMetrics_atMost_of_editedAt hdistinct hsettled.rules hrules hedit
      (fun a ha hscope a' ha' _ hfewer => ?_) hlatency).trans h.root
    obtain ⟨hmem, hscope, hbanks⟩ := h.exists_banks hrules ha hscope ha' hfewer
    exact hshelter.not_buried hsettled.bare h.isOpen hmem hscope hbanks
  · have hj := Strategy.spared_subset _ level ahead hj
    have hanc := hkept j hj
    rw [← Design.ancestors_of_bare (Design.forest_of_bare hsettled.bare)] at hanc
    rw [halike.buried_eq, hedit.buried_eq hdistinct hanc]
    exact h.isOpen j hj hb
  · rw [← halike.arrays]
    refine hedit.arrays a (h.untouched a ha (List.mem_cons_of_mem _ hahead)) fun hscope => hnew ?_
    rwa [← hscope, Design.scopeOf_of_bare hsettled.bare rfl]

end Progress.Steady

/-! ## 4. A function inside of a loop -/

namespace Enclosed

/-- A function inside of a loop, with arrays of its own: each of its two blocks reads some of them,
    one element in every iteration of the loop. -/
def design (trip : Nat) (outer : LoopDirectives) (inner : FuncDirectives)
    (first second : List String) (arrays : List ArrayDecl) : Design where
  name := "enclosed"
  root := ⟨0, .func { name := "top" }, none⟩
  below :=
    .cons ⟨1, .loop ⟨"i", .static trip, outer⟩, none⟩
      (.cons ⟨2, .func ⟨"inner", inner⟩, none⟩
        (.cons ⟨3, .block { accesses := first.map read }, none⟩ .nil
          (.cons ⟨4, .block { accesses := second.map read }, none⟩ .nil .nil)) .nil) .nil
  arrays := arrays
where
  /-- The element of an iteration. -/
  read (name : String) : Access := ⟨name, .read, [⟨"i", ["i"]⟩]⟩

/-- Both blocks read an array of the function, which has one bank, and the first reads another one,
    which has two. -/
def shared : Design :=
  design 8 ⟨false, 2, none⟩ {} ["tmp", "x"] ["tmp"]
    [{ name := "tmp", shape := [8], scope := some 2 },
     { name := "x", shape := [8], partition := 2 }]

/-- The options of a search from the top down. -/
def topDown : TargetSpec := { options := { strategy := .topDown } }

/-- The same, with a budget for ports. -/
def ported : TargetSpec := { topDown with target := { budgets := { memoryPorts := some 6 } } }

end Enclosed

/-! ## 5. The whole search -/

/-- A level that fits needs no help from earlier ones. -/
theorem Explorer.backtrack_of_fits {x : Explorer} {v : Visit} {current : LevelReport}
    (h : current.feasible = true) (fuel : Nat) :
    x.backtrack level fuel v current = .ok (v, current) := by
  cases fuel with
  | zero => rfl
  | succ fuel => exact if_pos h

/-- **All levels in turn**, each of them sheltering its arrays for as long as it is to be
    searched. -/
theorem Visit.exists_steady {levels : List RegionId} {v : Visit}
    (hlevels : ∀ i js, i :: js <:+ levels → i ∉ js ∧
      d.Shelters (spec.options.strategy.spared (i :: js)) i ∧
      ∀ j ∈ spec.options.strategy.spared (i :: js), i ∉ d.ancestors j)
    (h : v.progress.Steady spec d levels) :
    ∃ v', levels.foldlM (Explorer.new spec .standard).visitLevel v = .ok v' ∧
      v'.progress.Steady spec d [] := by
  induction levels generalizing v with
  | nil => exact ⟨v, rfl, h⟩
  | cons level rest ih =>
      obtain ⟨hnew, hshelter, hkept⟩ := hlevels level rest (List.suffix_refl _)
      obtain ⟨report, next, hsearch, hfits, hnext⟩ := h.searchLevel hnew hshelter hkept
      have hvisit : (Explorer.new spec .standard).visitLevel v level = .ok
          { v with progress := next, reports := v.reports ++ [report],
                   pending := v.reports.length :: v.pending } :=
        Attempt.bind_eq_ok_iff.mpr ⟨_, hsearch,
          Attempt.bind_eq_ok_iff.mpr ⟨_, Explorer.backtrack_of_fits hfits _, rfl⟩⟩
      obtain ⟨v', hv', hsteady⟩ := ih
        (fun i js hs => hlevels i js (hs.trans (List.suffix_cons _ _)))
        (v := { v with progress := next, reports := v.reports ++ [report],
                       pending := v.reports.length :: v.pending }) hnext
      refine ⟨v', ?_, hsteady⟩
      rw [List.foldlM_cons]
      exact Attempt.bind_eq_ok_iff.mpr ⟨_, hvisit, hv'⟩

namespace Explorer

variable {l : Listing} {t : Table} {report : SearchReport} {final : Annotated}

/-- Where levels are searched from the inside, no level is around a later one. -/
theorem not_mem_ancestors_of_levels {x : Explorer} {a : Annotated} (hd : a.design.preorder.Nodup)
    (hb : x.spec.options.strategy = .bottomUp) {i : RegionId} {js : List RegionId}
    (hs : i :: js <:+ x.levels a) : ∀ j ∈ i :: js, i ∉ a.design.ancestors j := by
  intro j hj hanc
  have hdepth := Design.depth_lt_of_mem_ancestors hd hanc
  have hordered := pairwise_levels x a
  simp only [mayPrecede, hb] at hordered
  rcases List.mem_cons.mp hj with rfl | hj
  · exact absurd hanc (Design.not_mem_ancestors_self hd)
  · have hle := of_decide_eq_true ((List.pairwise_cons.mp (hordered.sublist hs.sublist)).1 j hj)
    omega

/-- Levels that are searched one after the other shelter their arrays, if the design does. -/
theorem shelters_levels {x : Explorer} {start : Annotated} (hd : d.preorder.Nodup)
    (hstart : start.design = d) (hconfined : ∀ a ∈ d.arrays, 1 < a.partition → d.Confined a)
    (haround : ∀ a ∈ d.arrays, 1 < a.partition →
      (∀ n ∈ d.above (d.scopeOf a), n.region.loop? = none) ∨
        x.spec.options.strategy = .bottomUp ∧ d.buried (d.scopeOf a) = false)
    {i : RegionId} {js : List RegionId} (hs : i :: js <:+ x.levels start) :
    i ∉ js ∧ d.Shelters (x.spec.options.strategy.spared (i :: js)) i ∧
      ∀ j ∈ x.spec.options.strategy.spared (i :: js), i ∉ d.ancestors j := by
  subst hstart
  have hnodup := (nodup_levels (x := x) hd).sublist hs.sublist
  refine ⟨(List.nodup_cons.mp hnodup).1,
    ⟨fun a ha _ => hconfined a ha, fun a ha hscope hbanks => ?_⟩, fun j hj => ?_⟩
  · rw [← hscope]
    refine (haround a ha hbanks).imp_right fun hopen => ⟨?_, hopen.2⟩
    rw [hopen.1, hscope]
    exact List.mem_cons_self
  · cases hb : x.spec.options.strategy with
    | bottomUp =>
        rw [hb] at hj
        exact not_mem_ancestors_of_levels hd hb hs j hj
    | topDown =>
        rw [hb] at hj
        exact absurd hj List.not_mem_nil

/-- **No search makes a design slower that is within its budgets.** Take the design of a listing
    whose latency is known and whose hardware is within the budgets. Let each array that has more
    than one bank be accessed in the region whose lifetime it shares only, and no loop be around
    that region; or, if loops are around it, let none be pipelined and levels be searched from the
    inside. Then what a search with the standard operators ends with has a known latency, and it is
    not larger. Nothing is asked of arrays with one bank: they can only be given more. -/
theorem latency_explore_le {n : Nat} (hd : l.design = .ok d)
    (hconfined : ∀ a ∈ d.arrays, 1 < a.partition → d.Confined a)
    (haround : ∀ a ∈ d.arrays, 1 < a.partition →
      (∀ n ∈ d.above (d.scopeOf a), n.region.loop? = none) ∨
        spec.options.strategy = .bottomUp ∧ d.buried (d.scopeOf a) = false)
    (hlatency : (spec.estimator.refresh ⟨d, .empty⟩).1.latency = .known n)
    (hfits : ∀ k m, spec.target.budgets.get k = some m →
      (spec.estimator.refresh ⟨d, .empty⟩).1.resources.get k ≤ m)
    (h : (new spec .standard).explore ⟨d, t⟩ = .ok (report, final)) :
    ∃ k ≤ n, report.metrics.latency = .known k := by
  have hdistinct := Listing.nodup_of_design hd
  obtain ⟨hs, hp, hc⟩ := start_of_explore h
  have hroot : (spec.estimator.refresh ⟨d, .empty⟩).1 = spec.estimator.rootMetrics d :=
    (Annotated.upToDate_empty spec.estimator hdistinct).fst_refresh
  rw [hroot] at hlatency hfits
  obtain ⟨summary, start, hrun⟩ :
      ∃ summary start, spec.estimator.run ⟨d, t⟩ = .ok (summary, start) :=
    ⟨_, _, Estimator.run_eq_ok_iff.mpr ⟨hc, rfl, rfl⟩⟩
  obtain ⟨hcomplete, hdesign⟩ := @Estimator.complete_run spec.estimator ⟨d, t⟩ _ _ hdistinct hrun
  have hdesign : start.design = d := hdesign
  have hsteady : Progress.Steady spec d ((new spec .standard).levels start) ⟨start, 0, []⟩ := by
    refine ⟨⟨⟨hcomplete, hdesign ▸ hc, congrArg Design.bare hdesign⟩,
      fun _ hpt => absurd hpt List.not_mem_nil⟩, ?_, ?_, fun j _ hb => ?_, fun a ha _ => ?_⟩
    · rw [hdesign]
      exact (Target.fits_iff _ _).mpr hfits
    · rw [hdesign]
      exact .refl _
    · rw [hdesign]
      exact hb
    · rw [hdesign]
      exact ha
  obtain ⟨v, hv, hend⟩ := Visit.exists_steady (v := { progress := ⟨start, 0, []⟩ })
    (fun i js hsuffix => shelters_levels (x := new spec .standard) hdistinct hdesign hconfined
      haround hsuffix) hsteady
  obtain ⟨last, final', hfinal⟩ :
      ∃ last final', spec.estimator.run v.progress.annotated = .ok (last, final') :=
    ⟨_, _, Estimator.run_eq_ok_iff.mpr ⟨hend.sound.settled.rules, rfl, rfl⟩⟩
  obtain ⟨hfull, hsame⟩ := Estimator.complete_run hend.sound.settled.complete.distinct hfinal
  have hexplore := @explore_of_ok v (new spec .standard) _ _ _ _ _ hs hp hrun hv hfinal
  have hreport : report = (new spec .standard).finalReport v last final' :=
    congrArg Prod.fst (Except.ok.inj (h.symm.trans hexplore))
  obtain ⟨-, -, hlast⟩ := Estimator.run_eq_ok_iff.mp hfinal
  have hmetrics : report.metrics = spec.estimator.rootMetrics v.progress.annotated.design := by
    rw [hreport, ← hsame, ← Estimator.metrics_summary hfull, ← hlast]
    rfl
  rw [hmetrics]
  exact hend.root n hlatency

/-- A search from the top down: the loop is pipelined around the array with one bank, while the one
    with two banks belongs to the root. -/
theorem latency_explore_le_enclosed :
    Enclosed.shared.listing.design = .ok Enclosed.shared ∧
    (∃ a ∈ Enclosed.shared.arrays, 1 < a.partition) ∧
    (∀ a ∈ Enclosed.shared.arrays, 1 < a.partition → Enclosed.shared.Confined a) ∧
    (∀ a ∈ Enclosed.shared.arrays, 1 < a.partition →
      ∀ n ∈ Enclosed.shared.above (Enclosed.shared.scopeOf a), n.region.loop? = none) ∧
    (Enclosed.ported.estimator.refresh ⟨Enclosed.shared, .empty⟩).1.latency = .known 24 ∧
    Enclosed.ported.target.fits
      (Enclosed.ported.estimator.refresh ⟨Enclosed.shared, .empty⟩).1 = true ∧
    ∃ report final,
      (new Enclosed.ported .standard).explore ⟨Enclosed.shared, .empty⟩ = .ok (report, final) ∧
      ∃ k ≤ 24, report.metrics.latency = .known k := by
  have hlisting : Enclosed.shared.listing.design = .ok Enclosed.shared := by decide +kernel
  have hconfined : ∀ a ∈ Enclosed.shared.arrays, 1 < a.partition → Enclosed.shared.Confined a := by
    unfold Design.Confined
    decide +kernel
  have haround : ∀ a ∈ Enclosed.shared.arrays, 1 < a.partition →
      ∀ n ∈ Enclosed.shared.above (Enclosed.shared.scopeOf a), n.region.loop? = none := by
    decide +kernel
  have hlatency : (Enclosed.ported.estimator.refresh ⟨Enclosed.shared, .empty⟩).1.latency =
      .known 24 := by
    decide +kernel
  have hfits : Enclosed.ported.target.fits
      (Enclosed.ported.estimator.refresh ⟨Enclosed.shared, .empty⟩).1 = true := by
    decide +kernel
  obtain ⟨v, summary, final, -, -, -, hexplore, -⟩ := @explore_total Enclosed.ported .standard
    Enclosed.shared (Listing.nodup_of_design hlisting) .empty (by decide +kernel)
    (by decide +kernel) (Listing.tree_of_design hlisting).2
  exact ⟨hlisting, by decide, hconfined, haround, hlatency, hfits, _, final, hexplore,
    latency_explore_le hlisting hconfined (fun a ha hbanks => .inl (haround a ha hbanks)) hlatency
      ((Target.fits_iff _ _).mp hfits) hexplore⟩

end Explorer

/-! ## 6. Designs that become slower -/

theorem Explorer.exists_report {x : Explorer} {a : Annotated} {c : Cycles}
    (h : (x.explore a).toOption.map (fun r => r.1.metrics.latency) = some c) :
    ∃ report final, x.explore a = .ok (report, final) ∧ report.metrics.latency = c :=
  exists_report_eq (fun r => r.metrics.latency) h

namespace Shared

/-- A function has an array that another function reads, four elements at a time. -/
def listing : Listing where
  name := "shared"
  records :=
    [⟨⟨0, .func { name := "top" }, none⟩, none⟩,
     ⟨⟨1, .func { name := "reader" }, none⟩, some 0⟩,
     ⟨⟨2, .loop { iv := "i", trip := .static 4, directives := ⟨false, 4, none⟩ }, none⟩, some 1⟩,
     ⟨⟨3, .block { accesses := [⟨"tmp", .read, [⟨"i", ["i"]⟩]⟩] }, none⟩, some 2⟩,
     ⟨⟨4, .func { name := "owner" }, none⟩, some 0⟩,
     ⟨⟨5, .block { ops := [⟨.add, 32⟩] }, none⟩, some 4⟩]
  arrays := [{ name := "tmp", shape := [4], scope := some 4, partition := 2 }]

/-- The functions as a tree. -/
def design : Design where
  name := "shared"
  root := ⟨0, .func { name := "top" }, none⟩
  below :=
    .cons ⟨1, .func { name := "reader" }, none⟩
      (.cons ⟨2, .loop { iv := "i", trip := .static 4, directives := ⟨false, 4, none⟩ }, none⟩
        (.cons ⟨3, .block { accesses := [⟨"tmp", .read, [⟨"i", ["i"]⟩]⟩] }, none⟩ .nil .nil) .nil)
      (.cons ⟨4, .func { name := "owner" }, none⟩
        (.cons ⟨5, .block { ops := [⟨.add, 32⟩] }, none⟩ .nil .nil) .nil)
  arrays := listing.arrays

/-- **The search makes the design slower**: the function that has the array is as fast with one
    bank, which takes less hardware, but the loop that reads the array is not. -/
theorem slower : listing.design = .ok design ∧
    ((TargetSpec.estimator {}).refresh ⟨design, .empty⟩).1.latency = .known 3 ∧
    ({} : TargetSpec).target.fits ((TargetSpec.estimator {}).refresh ⟨design, .empty⟩).1 = true ∧
    ∃ report final, (Explorer.new {} .standard).explore ⟨design, .empty⟩ = .ok (report, final) ∧
      report.metrics.latency = .known 4 := by
  have hlisting : listing.design = .ok design := by decide +kernel
  have hlatency : ((Explorer.new {} .standard).explore ⟨design, .empty⟩).toOption.map
      (fun r => r.1.metrics.latency) = some (.known 4) := by
    decide +kernel
  exact ⟨hlisting, by decide +kernel, by decide +kernel, Explorer.exists_report hlatency⟩

end Shared

namespace Enclosed

/-- The blocks read the same array one after the other, in a pipelined loop. -/
def pipelined : Design :=
  design 4 ⟨true, 2, none⟩ {} ["tmp"] ["tmp"]
    [{ name := "tmp", shape := [4], scope := some 2, partition := 2 }]

/-- The blocks overlap, and each of them waits for an array that has one bank only. -/
def overlapped : Design :=
  design 32 ⟨false, 8, none⟩ { dataflow := 2 } ["a", "tmp"] ["b", "tmp"]
    [{ name := "a", shape := [1], scope := some 2 }, { name := "b", shape := [1], scope := some 2 },
     { name := "tmp", shape := [2], scope := some 2, partition := 2 }]

/-- **From the bottom up, inside of a pipelined loop**: each block is as fast with one bank, but
    the loop starts the reads of both blocks at once. -/
theorem slower_bottomUp : pipelined.listing.design = .ok pipelined ∧
    (∀ a ∈ pipelined.arrays, pipelined.Confined a) ∧
    ((TargetSpec.estimator {}).refresh ⟨pipelined, .empty⟩).1.latency = .known 5 ∧
    ∃ report final, (Explorer.new {} .standard).explore ⟨pipelined, .empty⟩ = .ok (report, final) ∧
      report.metrics.latency = .known 7 := by
  have hconfined : ∀ a ∈ pipelined.arrays, pipelined.Confined a := by
    unfold Design.Confined
    decide +kernel
  have hlatency : ((Explorer.new {} .standard).explore ⟨pipelined, .empty⟩).toOption.map
      (fun r => r.1.metrics.latency) = some (.known 7) := by
    decide +kernel
  exact ⟨by decide +kernel, hconfined, by decide +kernel, Explorer.exists_report hlatency⟩

/-- **From the top down, inside of a loop that is not pipelined yet**: the search pipelines the loop
    first, and then gives up a bank that the overlapping blocks do not need, but the loop does. -/
theorem slower_topDown : overlapped.listing.design = .ok overlapped ∧
    (∀ a ∈ overlapped.arrays, overlapped.Confined a) ∧
    (topDown.estimator.refresh ⟨overlapped, .empty⟩).1.latency = .known 36 ∧
    ∃ report final, (Explorer.new topDown .standard).explore ⟨overlapped, .empty⟩ =
        .ok (report, final) ∧ report.metrics.latency = .known 39 := by
  have hconfined : ∀ a ∈ overlapped.arrays, overlapped.Confined a := by
    unfold Design.Confined
    decide +kernel
  have hlatency : ((Explorer.new topDown .standard).explore ⟨overlapped, .empty⟩).toOption.map
      (fun r => r.1.metrics.latency) = some (.known 39) := by
    decide +kernel
  exact ⟨by decide +kernel, hconfined, by decide +kernel, Explorer.exists_report hlatency⟩

end Enclosed

end DesignSpace
