/-
  Subject:   WHAT ONCE FITS STAYS. A search ends within its budgets exactly if one of its points is
             within them, and a design that fits from the start fits at every level.

  * `Visit.Sound.kept_of_reports`: after a level the design fits if some point does;
  * `Explorer.explore_sound`: what a report is made of;
  * `Explorer.fits_explore_iff`: **no budget that was kept is passed in the end.**
-/
import DesignSpace.Proofs.Search.Explore

namespace DesignSpace

variable {spec : TargetSpec} {registry : Registry} {d : Design} {t : Table} {v : Visit}
  {report : SearchReport} {final : Annotated}

/-- Once a level is searched, points have been recorded, and one of them fits if the design does. -/
theorem Visit.Sound.kept_of_reports (h : v.Sound spec d) (hreports : v.reports ≠ []) :
    v.progress.Kept spec := by
  rcases h.kept with hkept | hfresh
  · exact hkept
  · exact absurd hfresh.reports hreports

namespace Explorer

/-- What has to be right for a search to give a report at all. -/
theorem start_of_explore (h : (new spec registry).explore ⟨d, t⟩ = .ok (report, final)) :
    spec.check = .ok () ∧ (new spec registry).checkPriority = .ok () ∧ d.check = .ok () := by
  by_cases hstart : spec.check = .ok () ∧ (new spec registry).checkPriority = .ok () ∧
      d.check = .ok ()
  · exact hstart
  · have herr := @explore_of_error (new spec registry) (new spec registry) ⟨d, t⟩ rfl rfl hstart
    rcases herr with ⟨err, herr, -⟩
    rw [herr] at h
    cases h

/-- **What a report is made of**: the levels, the points and the count of a search that went well,
    and the metrics of the design that it ends with. -/
theorem explore_sound (hd : d.preorder.Nodup)
    (h : (new spec registry).explore ⟨d, t⟩ = .ok (report, final)) :
    ∃ v : Visit, v.Sound spec d ∧ report.levels = v.reports ∧
      report.points = v.progress.points ∧ report.backtracks = v.backtracks ∧
      report.metrics = spec.estimator.rootMetrics v.progress.annotated.design := by
  have hstart := start_of_explore h
  rcases hstart with ⟨hs, hp, hc⟩
  have htotal := @explore_total spec registry d hd t hs hp hc
  rcases htotal with ⟨v, summary, last, hv, -, hmetrics, hexplore, -⟩
  have hsame := Except.ok.inj (h.symm.trans hexplore)
  have hreport : report = (new spec registry).finalReport v summary last := congrArg Prod.fst hsame
  rw [hreport]
  exact ⟨v, hv, rfl, rfl, rfl, hmetrics⟩

/-- **No budget that was kept is passed in the end.** A search of the design of a listing that has
    at least one level ends within all budgets for hardware exactly if one of its points is within
    them. The first point is the design as it was given; if that one fits, then every level does,
    and the search never goes back. -/
theorem fits_explore_iff {l : Listing} (hd : l.design = .ok d)
    (h : (new spec registry).explore ⟨d, t⟩ = .ok (report, final)) (hlevels : report.levels ≠ []) :
    ((∀ k n, spec.target.budgets.get k = some n → report.metrics.resources.get k ≤ n) ↔
      ∃ pt ∈ report.points, pt.feasible = true) ∧
    ∃ first rest, report.points = first :: rest ∧
      first.feasible = spec.target.fits (spec.estimator.refresh ⟨d, .empty⟩).1 ∧
      (first.feasible = true →
        (∀ r ∈ report.levels, r.feasible = true) ∧ report.backtracks = 0) := by
  have hdistinct := Listing.nodup_of_design hd
  have hsound := explore_sound hdistinct h
  rcases hsound with ⟨v, hv, hreports, hpoints, hbacktracks, hmetrics⟩
  rw [hreports] at hlevels ⊢
  rw [hpoints, hbacktracks, hmetrics]
  have hkept := hv.kept_of_reports hlevels
  refine ⟨?_, ?_⟩
  · rw [← Target.fits_iff]
    exact hkept.fits
  · cases hlist : v.progress.points with
    | nil => exact absurd hlist hkept.started
    | cons first rest =>
        have hfirst : v.progress.points.head? = some first := by rw [hlist]; rfl
        have hroot : (spec.estimator.refresh ⟨d, .empty⟩).1 = spec.estimator.rootMetrics d :=
          (Annotated.upToDate_empty spec.estimator hdistinct).fst_refresh
        refine ⟨first, rest, rfl, ?_, fun hf => hv.steady first hfirst hf⟩
        rw [hroot]
        exact hv.opened first hfirst

/-- A search that starts outside its budgets, finds a point within them, and ends there. -/
theorem fits_explore_smoothing :
    Smoothing.listing.design = .ok Smoothing.design ∧ ∃ report final,
      (new Smoothing.tight .standard).explore ⟨Smoothing.design, .empty⟩ = .ok (report, final) ∧
      report.levels ≠ [] ∧
      (∃ pt ∈ report.points, pt.feasible = true) ∧
      (∀ k n, Smoothing.tight.target.budgets.get k = some n →
        report.metrics.resources.get k ≤ n) ∧
      ∃ first rest, report.points = first :: rest ∧ first.feasible = false ∧
        Smoothing.tight.target.fits
          (Smoothing.tight.estimator.refresh ⟨Smoothing.design, .empty⟩).1 = false := by
  obtain ⟨report, final, hreport, heq⟩ := exists_report_eq (x := new Smoothing.tight .standard)
    (a := ⟨Smoothing.design, .empty⟩) (c := (false, true, some false))
    (fun r => (r.levels.isEmpty, r.points.any Point.feasible,
      r.points.head?.map Point.feasible)) (by decide +kernel)
  obtain ⟨hlevels, hfound, hhead⟩ := Prod.mk.inj heq |>.imp_right Prod.mk.inj
  have hlevels : report.levels ≠ [] := fun hnil => by simp [hnil] at hlevels
  have hfound : ∃ pt ∈ report.points, pt.feasible = true := List.any_eq_true.mp hfound
  obtain ⟨hiff, first, rest, hpoints, hfirst, -⟩ :=
    fits_explore_iff Smoothing.design_listing hreport hlevels
  have houtside : first.feasible = false := by
    rw [hpoints] at hhead
    exact Option.some.inj hhead
  exact ⟨Smoothing.design_listing, report, final, hreport, hlevels, hfound, hiff.mpr hfound, first,
    rest, hpoints, houtside, hfirst.symm.trans houtside⟩

end Explorer

end DesignSpace
