/-
  Subject:   THE WHOLE SEARCH, level by level and back again. Keeping estimates up to date does not
             change it, and what once fits the budgets is not lost.

  * `Progress.Kept`: the design as it stands fits if and only if some point so far does;
  * `Visit.Trying.backtrack`: **going back to earlier levels** keeps that;
  * `Visit.Sound.visitLevel`: so does a level with all help from earlier ones;
  * `Explorer.explore_total`: a search that starts at all comes to an end with a report;
  * `Explorer.explore_eq_naive`: **the search finds what the naive search finds.**
-/
import DesignSpace.Proofs.Design.Distinct
import DesignSpace.Proofs.Search.Level

namespace DesignSpace

/-! ## 1. What fits stays -/

/-- Points have been recorded, and the design as it stands fits the budgets exactly if the design
    of one of them did. -/
structure Progress.Kept (spec : TargetSpec) (progress : Progress) : Prop where
  started : progress.points ≠ []
  fits : spec.target.fits (spec.estimator.rootMetrics progress.annotated.design) = true ↔
    ∃ pt ∈ progress.points, pt.feasible = true

/-- The first point of a search is that of the design which the search is about. -/
def Progress.Opened (spec : TargetSpec) (d : Design) (progress : Progress) : Prop :=
  ∀ first, progress.points.head? = some first →
    first.feasible = spec.target.fits (spec.estimator.rootMetrics d)

/-- A search that has not yet searched a level. -/
structure Visit.Fresh (d : Design) (v : Visit) : Prop where
  design : v.progress.annotated.design = d
  points : v.progress.points = []
  reports : v.reports = []
  backtracks : v.backtracks = 0

/-- What holds between two levels. -/
structure Visit.Sound (spec : TargetSpec) (d : Design) (v : Visit) : Prop where
  progress : v.progress.Sound spec d
  opened : v.progress.Opened spec d
  kept : v.progress.Kept spec ∨ v.Fresh d
  steady : ∀ first, v.progress.points.head? = some first → first.feasible = true →
    (∀ r ∈ v.reports, r.feasible = true) ∧ v.backtracks = 0

/-- What holds while a level is helped by earlier ones, where `current` is its report so far. -/
structure Visit.Trying (spec : TargetSpec) (d : Design) (v : Visit) (current : LevelReport) :
    Prop where
  progress : v.progress.Sound spec d
  opened : v.progress.Opened spec d
  kept : v.progress.Kept spec
  fits : current.feasible =
    spec.target.fits (spec.estimator.rootMetrics v.progress.annotated.design)
  steady : ∀ first, v.progress.points.head? = some first → first.feasible = true →
    (∀ r ∈ v.reports, r.feasible = true) ∧ v.backtracks = 0

section Search

variable {spec : TargetSpec} {registry : Registry} {d : Design} {progress next : Progress}
  {report : LevelReport} {v : Visit}

namespace Searched

/-- The first point of a search stays the first one. -/
theorem head?_eq (h : Searched spec d progress next report) (hp : progress.points ≠ []) :
    next.points.head? = progress.points.head? := by
  obtain ⟨start, rest, hpoints, -, -⟩ := h.found
  rw [hpoints, List.head?_append_of_ne_nil _ hp]

theorem opened (h : Searched spec d progress next report) (hp : progress.points ≠ [])
    (ho : progress.Opened spec d) : next.Opened spec d := fun first hfirst =>
  ho first ((h.head?_eq hp).symm.trans hfirst)

/-- The first point of the first level is that of the design which the search is about. -/
theorem opened_of_fresh (h : Searched spec d progress next report) (hp : progress.points = [])
    (hd : progress.annotated.design = d) : next.Opened spec d := by
  obtain ⟨start, rest, hpoints, hstart, -⟩ := h.found
  intro first hfirst
  rw [hpoints, hp] at hfirst
  obtain rfl := Option.some.inj hfirst
  rw [hstart, hd]

/-- **A level loses nothing that fits**: if an earlier point does, so does the design that the level
    starts with, and then the one that it ends with. -/
theorem kept (h : Searched spec d progress next report)
    (hp : progress.Kept spec ∨ progress.points = []) : next.Kept spec := by
  obtain ⟨start, rest, hpoints, hstart, hreport⟩ := h.found
  refine ⟨by rw [hpoints]; simp, ?_⟩
  rw [← h.fits, hreport, hpoints]
  constructor
  · rintro ⟨pt, hpt, hf⟩
    exact ⟨pt, List.mem_append_right _ hpt, hf⟩
  · rintro ⟨pt, hpt, hf⟩
    rcases List.mem_append.mp hpt with hpt | hpt
    · rcases hp with hkept | hnil
      · exact ⟨start, List.mem_cons_self, hstart.trans (hkept.fits.mpr ⟨pt, hpt, hf⟩)⟩
      · rw [hnil] at hpt
        exact absurd hpt List.not_mem_nil
    · exact ⟨pt, hpt, hf⟩

end Searched

/-- A first point that fits means that the design fits ever since. -/
theorem Progress.Kept.fits_of_first (h : progress.Kept spec) {first : Point}
    (hfirst : progress.points.head? = some first) (hf : first.feasible = true) :
    spec.target.fits (spec.estimator.rootMetrics progress.annotated.design) = true :=
  h.fits.mpr ⟨first, List.mem_of_mem_head? hfirst, hf⟩

/-! ## 2. Going back -/

namespace Explorer

variable {x : Explorer} {level : RegionId} {fuel place : Nat} {pending : List Nat}
  {current earlier again : LevelReport}

/-- An earlier level that does not help is given up. -/
theorem backtrack_of_infeasible (hc : ¬ current.feasible = true)
    (hpending : v.pending = place :: pending) (hplace : v.reports[place]? = some earlier)
    (hs : x.searchLevel earlier.region v.progress = .ok (again, progress))
    (ha : ¬ again.feasible = true) :
    x.backtrack level (fuel + 1) v current =
      x.backtrack level fuel
        ⟨progress, v.backtracks + 1, v.reports.set place again, pending⟩ current := by
  rw [backtrack, if_neg hc, hpending]
  simp only [hplace]
  rw [hs]
  exact if_neg ha

/-- After an earlier level that helps the level itself is searched again. -/
theorem backtrack_of_feasible (hc : ¬ current.feasible = true)
    (hpending : v.pending = place :: pending) (hplace : v.reports[place]? = some earlier)
    (hs : x.searchLevel earlier.region v.progress = .ok (again, progress))
    (ha : again.feasible = true) (hn : x.searchLevel level progress = .ok (report, next)) :
    x.backtrack level (fuel + 1) v current =
      x.backtrack level fuel
        ⟨next, v.backtracks + 1, v.reports.set place again, place :: pending⟩ report := by
  rw [backtrack, if_neg hc, hpending]
  simp only [hplace]
  rw [hs]
  refine (if_pos ha).trans ?_
  rw [hn]
  rfl

end Explorer

namespace Visit

variable {current : LevelReport} {level : RegionId}

/-- Where the level does not fit, no point does, the first one neither. -/
theorem Trying.first_not_feasible (h : v.Trying spec d current) (hc : ¬ current.feasible = true)
    {first : Point} (hfirst : v.progress.points.head? = some first) : ¬ first.feasible = true := by
  intro hf
  exact hc (h.fits.trans (h.kept.fits_of_first hfirst hf))

/-- **Going back to earlier levels** comes to the same with both ways of upkeep. -/
theorem Trying.backtrack (h : v.Trying spec d current) (level : RegionId) (fuel : Nat) :
    ∃ v' current',
      (Explorer.new spec registry).backtrack level fuel v current = .ok (v', current') ∧
      (Explorer.naive spec registry).backtrack level fuel v current = .ok (v', current') ∧
        v'.Trying spec d current' := by
  induction fuel generalizing v current with
  | zero => exact ⟨v, current, rfl, rfl, h⟩
  | succ fuel ih =>
      by_cases hc : current.feasible = true
      · exact ⟨v, current, if_pos hc, if_pos hc, h⟩
      cases hpending : v.pending with
      | nil =>
          refine ⟨v, current, ?_, ?_, h⟩ <;>
            rw [Explorer.backtrack, if_neg hc, hpending]
      | cons place pending =>
          cases hplace : v.reports[place]? with
          | none =>
              refine ⟨v, current, ?_, ?_, h⟩ <;>
                · rw [Explorer.backtrack, if_neg hc, hpending]
                  simp only [hplace]
          | some earlier =>
              obtain ⟨again, progress, hnew, hnaive, hagain⟩ :=
                @Progress.Sound.searchLevel spec registry d v.progress h.progress earlier.region
              have hkept := hagain.kept (.inl h.kept)
              have hfirst := hagain.head?_eq h.kept.started
              by_cases ha : again.feasible = true
              · obtain ⟨report, next, hnew', hnaive', hreport⟩ :=
                  @Progress.Sound.searchLevel spec registry d progress hagain.sound level
                have hfirst' := (hreport.head?_eq hkept.started).trans hfirst
                rw [Explorer.backtrack_of_feasible hc hpending hplace hnew ha hnew',
                  Explorer.backtrack_of_feasible hc hpending hplace hnaive ha hnaive']
                refine ih ⟨hreport.sound, hreport.opened hkept.started
                  (hagain.opened h.kept.started h.opened), hreport.kept (.inl hkept),
                  hreport.fits, fun first hf hfeasible => ?_⟩
                exact absurd hfeasible (h.first_not_feasible hc (hfirst'.symm.trans hf))
              · rw [Explorer.backtrack_of_infeasible hc hpending hplace hnew ha,
                  Explorer.backtrack_of_infeasible hc hpending hplace hnaive ha]
                refine ih ⟨hagain.sound, hagain.opened h.kept.started h.opened, hkept, ?_,
                  fun first hf hfeasible => ?_⟩
                · rw [← hagain.fits, Bool.eq_false_iff.mpr ha, Bool.eq_false_iff.mpr hc]
                · exact absurd hfeasible (h.first_not_feasible hc (hfirst.symm.trans hf))

/-- **One more level** with all help from earlier ones. -/
theorem Sound.visitLevel (h : v.Sound spec d) (level : RegionId) :
    ∃ v', (Explorer.new spec registry).visitLevel v level = .ok v' ∧
      (Explorer.naive spec registry).visitLevel v level = .ok v' ∧
        v'.Sound spec d ∧ v'.reports ≠ [] := by
  obtain ⟨report, progress, hnew, hnaive, hreport⟩ :=
    @Progress.Sound.searchLevel spec registry d v.progress h.progress level
  have hkept := hreport.kept (h.kept.imp_right Fresh.points)
  have htrying : Trying spec d { v with progress } report := by
    rcases h.kept with hold | hfresh
    · refine ⟨hreport.sound, hreport.opened hold.started h.opened, hkept, hreport.fits,
        fun first hf hfeasible => ?_⟩
      exact h.steady first ((hreport.head?_eq hold.started).symm.trans hf) hfeasible
    · refine ⟨hreport.sound, hreport.opened_of_fresh hfresh.points hfresh.design, hkept,
        hreport.fits, fun first hf hfeasible => ⟨fun r hr => ?_, hfresh.backtracks⟩⟩
      have hr : r ∈ v.reports := hr
      rw [hfresh.reports] at hr
      exact absurd hr List.not_mem_nil
  obtain ⟨v', report', hnew', hnaive', htried⟩ := @Trying.backtrack spec registry d _ _ htrying
    level ((Explorer.new spec registry).spec.options.maxBacktracks - v.backtracks)
  refine ⟨{ v' with
    reports := v'.reports ++ [report']
    pending := v'.reports.length :: v'.pending }, ?_, ?_, ?_, by simp⟩
  · exact Attempt.bind_eq_ok_iff.mpr
      ⟨_, hnew, Attempt.bind_eq_ok_iff.mpr ⟨_, hnew', rfl⟩⟩
  · exact Attempt.bind_eq_ok_iff.mpr
      ⟨_, hnaive, Attempt.bind_eq_ok_iff.mpr ⟨_, hnaive', rfl⟩⟩
  · refine ⟨htried.progress, htried.opened, .inl htried.kept, fun first hf hfeasible => ?_⟩
    obtain ⟨hreports, hbacktracks⟩ := htried.steady first hf hfeasible
    refine ⟨fun r hr => ?_, hbacktracks⟩
    rcases List.mem_append.mp hr with hr | hr
    · exact hreports r hr
    · rw [List.mem_singleton.mp hr, htried.fits]
      exact htried.kept.fits_of_first hf hfeasible

/-- All levels in turn. -/
theorem Sound.visitLevels (h : v.Sound spec d) (levels : List RegionId) :
    ∃ v', levels.foldlM (Explorer.new spec registry).visitLevel v = .ok v' ∧
      levels.foldlM (Explorer.naive spec registry).visitLevel v = .ok v' ∧ v'.Sound spec d := by
  refine Attempt.foldlM_agree (fun v level hv => ?_) h
  obtain ⟨v', hnew, hnaive, hv', -⟩ := hv.visitLevel level
  exact ⟨v', hnew, hnaive, hv'⟩

end Visit

/-! ## 3. The whole search -/

namespace Explorer

variable {x y : Explorer} {a start final : Annotated} {summary summary' : Summary}

/-- The report of a search whose levels are all visited. -/
def finalReport (x : Explorer) (v : Visit) (summary : Summary) (final : Annotated) :
    SearchReport where
  design := final.design.name
  strategy := x.spec.options.strategy
  levels := v.reports
  metrics := summary.metrics
  infeasible := x.misses summary.metrics
  evaluations := v.progress.evaluations
  backtracks := v.backtracks
  points := v.progress.points

theorem finalReport_congr (h : y.spec = x.spec) : y.finalReport = x.finalReport := by
  funext v summary final
  unfold finalReport
  rw [h, misses_congr h]

/-- What is asked for up front is a target that keeps its rules and operators that are there. -/
theorem checkInput_eq_ok_iff :
    x.checkInput = .ok () ↔ x.spec.check = .ok () ∧ x.checkPriority = .ok () := by
  refine ⟨fun h => ?_, fun ⟨hs, hp⟩ => Attempt.bind_eq_ok_iff.mpr
    ⟨(), Attempt.mapError_eq_ok_iff.mpr hs, hp⟩⟩
  obtain ⟨⟨⟩, hs, hp⟩ := Attempt.bind_eq_ok_iff.mp h
  exact ⟨Attempt.mapError_eq_ok_iff.mp hs, hp⟩

theorem checkInput_congr (hs : y.spec = x.spec) (hr : y.registry = x.registry) :
    y.checkInput = x.checkInput := by
  unfold checkInput
  rw [checkPriority_congr hs hr, hs]

/-- A search without what is asked for up front leaves everything as it is. -/
theorem search_of_input {err : SearchError} (h : x.checkInput = .error err) :
    x.search a = ⟨.error err, a, .initializing⟩ := by
  unfold search
  rw [h]

/-- So does the search of a design that does not keep the rules. -/
theorem search_of_defect {defect : Defect} (h : x.checkInput = .ok ())
    (hd : a.design.check = .error defect) :
    x.search a = ⟨.error (.design defect), a, .initializing⟩ := by
  have hrun : x.spec.estimator.run a = .error defect := by
    unfold Estimator.run
    rw [hd]
    rfl
  unfold search
  rw [h]
  simp only [hrun]

/-- A search that nothing stops, step by step. -/
theorem search_of_ok (h : x.checkInput = .ok ())
    (hstart : x.spec.estimator.run a = .ok (summary, start))
    (hv : (x.levels start).foldlM x.visitLevel { progress := ⟨start, 0, []⟩ } = .ok v)
    (hfinal : x.spec.estimator.run v.progress.annotated = .ok (summary', final)) :
    x.search a = ⟨.ok (x.finalReport v summary' final), final, .done⟩ := by
  unfold search
  rw [h]
  simp only [hstart, hv, hfinal]
  rfl

theorem explore_of_search {ending : Ending} (h : x.search a = ending) :
    x.explore a = ending.result := congrArg Ending.result h

theorem explore_of_ok (hs : x.spec.check = .ok ()) (hp : x.checkPriority = .ok ())
    (hstart : x.spec.estimator.run a = .ok (summary, start))
    (hv : (x.levels start).foldlM x.visitLevel { progress := ⟨start, 0, []⟩ } = .ok v)
    (hfinal : x.spec.estimator.run v.progress.annotated = .ok (summary', final)) :
    x.explore a = .ok (x.finalReport v summary' final, final) :=
  explore_of_search (search_of_ok (checkInput_eq_ok_iff.mpr ⟨hs, hp⟩) hstart hv hfinal)

theorem explore_eq_ok_iff {report : SearchReport} : x.explore a = .ok (report, final) ↔
    (x.search a).outcome = .ok report ∧ (x.search a).annotated = final := by
  unfold explore
  rcases x.search a with ⟨_ | r, b, phase⟩
  · exact ⟨nofun, nofun⟩
  · simp [Ending.result]

/-- **A search with a report** is done: it went through all levels, from the estimates of the design
    to the report of the design estimated in the end. -/
theorem exists_visit_of_search {report : SearchReport} (h : (x.search a).outcome = .ok report) :
    ∃ summary start v summary' final, x.spec.estimator.run a = .ok (summary, start) ∧
      (x.levels start).foldlM x.visitLevel { progress := ⟨start, 0, []⟩ } = .ok v ∧
      x.spec.estimator.run v.progress.annotated = .ok (summary', final) ∧
      report = x.finalReport v summary' final ∧ x.search a = ⟨.ok report, final, .done⟩ := by
  cases hinput : x.checkInput with
  | error err =>
      rw [search_of_input hinput] at h
      cases h
  | ok _ =>
      unfold search at h
      rw [hinput] at h
      rcases hstart : x.spec.estimator.run a with _ | ⟨summary, start⟩
      · simp only [hstart] at h
        cases h
      rcases hv : (x.levels start).foldlM x.visitLevel { progress := ⟨start, 0, []⟩ } with _ | v
      · simp only [hstart, hv] at h
        cases h
      rcases hfinal : x.spec.estimator.run v.progress.annotated with _ | ⟨summary', final⟩
      · simp only [hstart, hv, hfinal] at h
        cases h
      simp only [hstart, hv, hfinal] at h
      obtain rfl := Except.ok.inj h
      exact ⟨summary, start, v, summary', final, rfl, hv, hfinal, rfl,
        search_of_ok hinput hstart hv hfinal⟩

/-- What a search starts with stops it in the same way with both ways of upkeep. -/
theorem explore_of_error (hs : y.spec = x.spec) (hr : y.registry = x.registry)
    (h : ¬ (x.spec.check = .ok () ∧ x.checkPriority = .ok () ∧ a.design.check = .ok ())) :
    ∃ err, x.explore a = .error err ∧ y.explore a = .error err := by
  have hinput := checkInput_congr hs hr
  cases hx : x.checkInput with
  | error err =>
      exact ⟨err, explore_of_search (search_of_input hx),
        explore_of_search (search_of_input (hinput.trans hx))⟩
  | ok _ =>
      cases hd : a.design.check with
      | error defect =>
          exact ⟨.design defect, explore_of_search (search_of_defect hx hd),
            explore_of_search (search_of_defect (hinput.trans hx) hd)⟩
      | ok _ =>
          obtain ⟨hspec, hp⟩ := checkInput_eq_ok_iff.mp hx
          exact absurd ⟨hspec, hp, hd⟩ h

/-- **A search that starts comes to its end**, with one and the same report and design for both
    ways of upkeep. -/
theorem explore_total (hd : d.preorder.Nodup) (t : Table) (hs : spec.check = .ok ())
    (hp : (new spec registry).checkPriority = .ok ()) (hc : d.check = .ok ()) :
    ∃ v summary final, v.Sound spec d ∧ final.Settled spec.estimator d ∧
      summary.metrics = spec.estimator.rootMetrics v.progress.annotated.design ∧
      (new spec registry).explore ⟨d, t⟩ =
        .ok ((new spec registry).finalReport v summary final, final) ∧
      (naive spec registry).explore ⟨d, t⟩ =
        .ok ((new spec registry).finalReport v summary final, final) := by
  have hrun : spec.estimator.run ⟨d, t⟩ = .ok _ := Estimator.run_eq_ok_iff.mpr ⟨hc, rfl, rfl⟩
  obtain ⟨hcomplete, hdesign⟩ := @Estimator.complete_run spec.estimator ⟨d, t⟩ _ _ hd hrun
  have hsettled : Annotated.Settled spec.estimator d (spec.estimator.refresh ⟨d, .empty⟩).2 :=
    ⟨hcomplete, hdesign ▸ hc, congrArg Design.bare hdesign⟩
  have hinitial : Visit.Sound spec d
      { progress := ⟨(spec.estimator.refresh ⟨d, .empty⟩).2, 0, []⟩ } := by
    refine ⟨⟨hsettled, fun pt hpt => absurd hpt List.not_mem_nil⟩, ?_,
      .inr ⟨hdesign, rfl, rfl, rfl⟩, ?_⟩
    · intro first hfirst
      cases hfirst
    · intro first hfirst
      cases hfirst
  obtain ⟨v, hnew, hnaive, hv⟩ := @Visit.Sound.visitLevels spec registry d _ hinitial
    ((new spec registry).levels (spec.estimator.refresh ⟨d, .empty⟩).2)
  have hfinal : spec.estimator.run v.progress.annotated = .ok _ :=
    Estimator.run_eq_ok_iff.mpr ⟨hv.progress.settled.rules, rfl, rfl⟩
  obtain ⟨hfull, hsame⟩ := Estimator.complete_run hv.progress.settled.complete.distinct hfinal
  refine ⟨v, _, _, hv, ⟨hfull, hsame ▸ hv.progress.settled.rules,
    (congrArg Design.bare hsame).trans hv.progress.settled.bare⟩,
    (Estimator.metrics_summary hfull).trans (congrArg _ hsame),
    @explore_of_ok v (new spec registry) _ _ _ _ _ hs hp hrun hnew hfinal, ?_⟩
  have hs' : (naive spec registry).spec.check = .ok () := hs
  have hp' : (naive spec registry).checkPriority = .ok () := by
    rw [checkPriority_congr (spec_naive spec registry) (registry_naive spec registry)]
    exact hp
  rw [← levels_congr (spec_naive spec registry) (registry_naive spec registry)] at hnaive
  rw [← finalReport_congr (spec_naive spec registry)]
  exact @explore_of_ok v (naive spec registry) _ _ _ _ _ hs' hp' hrun hnaive hfinal

/-- **The search finds what the naive search finds.** On the design of a listing, with any target
    and any operators, keeping estimates and putting them back gives the same report and the same
    design as estimating everything anew at every step; and each point of the report tells of a
    configuration that was estimated as a whole. -/
theorem explore_eq_naive {l : Listing} {d : Design} (hd : l.design = .ok d) (spec : TargetSpec)
    (registry : Registry) (t : Table) :
    (new spec registry).explore ⟨d, t⟩ = (naive spec registry).explore ⟨d, t⟩ ∧
      ∀ report final, (new spec registry).explore ⟨d, t⟩ = .ok (report, final) →
        Truthful spec d report.points := by
  have hdistinct := Listing.nodup_of_design hd
  have hc := (Listing.tree_of_design hd).2
  by_cases h : spec.check = .ok () ∧ (new spec registry).checkPriority = .ok () ∧ d.check = .ok ()
  · obtain ⟨v, summary, final, hv, -, -, hnew, hnaive⟩ :=
      @explore_total spec registry d hdistinct t h.1 h.2.1 hc
    rw [hnew, hnaive]
    refine ⟨rfl, fun report final hreport => ?_⟩
    obtain ⟨rfl, -⟩ := Prod.mk.inj (Except.ok.inj hreport)
    exact hv.progress.points
  · obtain ⟨err, hnew, hnaive⟩ := @explore_of_error (new spec registry) (naive spec registry) ⟨d, t⟩
      (spec_naive spec registry) (registry_naive spec registry) h
    rw [hnew, hnaive]
    exact ⟨rfl, nofun⟩

/-- A search that is computed has a report and a design. -/
theorem exists_result_eq {α : Type} (f : SearchReport × Annotated → α) {c : α}
    (h : (x.explore a).toOption.map f = some c) :
    ∃ report final, x.explore a = .ok (report, final) ∧ f (report, final) = c := by
  cases hexplore : x.explore a with
  | error e => rw [hexplore] at h; cases h
  | ok result =>
      rw [hexplore] at h
      exact ⟨result.1, result.2, rfl, Option.some.inj h⟩

/-- The same, where only the report counts. -/
theorem exists_report_eq {α : Type} (f : SearchReport → α) {c : α}
    (h : (x.explore a).toOption.map (fun r => f r.1) = some c) :
    ∃ report final, x.explore a = .ok (report, final) ∧ f report = c :=
  exists_result_eq (fun r => f r.1) h

end Explorer

namespace Smoothing

/-- A budget that is passed at first, and three configurations for each level. -/
def tight : TargetSpec where
  target := { budgets := { computeUnits := some 3 } }
  options := { candidateBudget := some 3 }

theorem explore_tight : ∃ report final,
    (Explorer.new tight .standard).explore ⟨design, .empty⟩ = .ok (report, final) ∧
      report.levels ≠ [] ∧ report.points ≠ [] := by
  obtain ⟨report, final, hreport, heq⟩ := Explorer.exists_report_eq
    (x := Explorer.new tight .standard) (a := ⟨design, .empty⟩) (c := (false, false))
    (fun r => (r.levels.isEmpty, r.points.isEmpty)) (by decide +kernel)
  obtain ⟨hlevels, hpoints⟩ := Prod.mk.inj heq
  exact ⟨report, final, hreport, fun hnil => by simp [hnil] at hlevels,
    fun hnil => by simp [hnil] at hpoints⟩

end Smoothing

/-- A search that gives up some of its trials. -/
theorem Explorer.explore_eq_naive_smoothing :
    Smoothing.listing.design = .ok Smoothing.design ∧ ∃ report final,
      (Explorer.new Smoothing.tight .standard).explore ⟨Smoothing.design, .empty⟩ =
        .ok (report, final) ∧
      (Explorer.naive Smoothing.tight .standard).explore ⟨Smoothing.design, .empty⟩ =
        .ok (report, final) ∧
      report.points ≠ [] ∧ Truthful Smoothing.tight Smoothing.design report.points := by
  obtain ⟨report, final, hreport, -, hpoints⟩ := Smoothing.explore_tight
  obtain ⟨heq, htruthful⟩ :=
    Explorer.explore_eq_naive Smoothing.design_listing Smoothing.tight .standard .empty
  exact ⟨Smoothing.design_listing, report, final, hreport, heq.symm.trans hreport, hpoints,
    htruthful report final hreport⟩

end Search

end DesignSpace
