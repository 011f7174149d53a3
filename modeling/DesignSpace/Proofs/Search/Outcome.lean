/-
  Subject:   THE OUTCOME OF A SEARCH IS ON RECORD. The design that a search ends with is one that it
             has recorded a point for, and the frontier has nothing slower or larger to offer.

  * `LevelRun.Reach.best_mem`: the best candidate of a level is among the points;
  * `Progress.Recorded`: some point has the outcome of the design as it stands;
  * `Explorer.recorded_of_explore`: **what a search ends with is recorded**;
  * `Explorer.frontier_explore`: **the frontier covers what a search ends with.**
-/
import DesignSpace.Proofs.Search.Course
import DesignSpace.Proofs.Search.Frontier

namespace DesignSpace

variable {spec : TargetSpec} {registry : Registry} {d : Design} {t : Table} {level : RegionId}
  {progress next : Progress} {report : LevelReport}

/-! ## 1. One level -/

/-- **The best candidate is among the points**, from the first trial of a level to the last. -/
theorem LevelRun.Reach.best_mem {x : Explorer} {first run : LevelRun}
    (h : Reach x d level first run) (hfirst : first.best.point level ∈ first.progress.points) :
    run.best.point level ∈ run.progress.points := by
  induction h with
  | start => exact hfirst
  | trial _ _ hv ih =>
      cases Explorer.step_of_tryValue hv with
      | passed => exact ih
      | refused => exact ih
      | kept => exact List.mem_append_right _ List.mem_cons_self
      | takenBack => exact List.mem_append_left _ ih

/-- **Some point has the outcome of the design as it stands**, and says whether it fits. -/
def Progress.Recorded (spec : TargetSpec) (progress : Progress) : Prop :=
  let m := spec.estimator.rootMetrics progress.annotated.design
  ∃ pt ∈ progress.points, pt.latency = m.latency ∧ pt.resources = m.resources ∧
    pt.feasible = spec.target.fits m

/-- A level that has been searched leaves the design on record. -/
theorem Progress.Sound.recorded (h : progress.Sound spec d)
    (hs : (Explorer.new spec registry).searchLevel level progress = .ok (report, next)) :
    next.Recorded spec := by
  obtain ⟨start, run, hsound, hreach, -, rfl⟩ := h.reach_of_searchLevel hs
  refine ⟨run.best.point level, hreach.best_mem ?_, ?_, ?_, ?_⟩
  · exact List.mem_append_right _ List.mem_cons_self
  · exact congrArg Metrics.latency hsound.root
  · exact congrArg Metrics.resources hsound.root
  · exact hsound.fits.trans (congrArg spec.target.fits hsound.root)

/-! ## 2. The whole search -/

namespace Explorer

variable {report : SearchReport} {final : Annotated} {l : Listing}

/-- **What a search ends with is recorded**, once it has recorded anything. -/
theorem recorded_of_explore (hd : d.preorder.Nodup)
    (h : (new spec registry).explore ⟨d, t⟩ = .ok (report, final)) (hpoints : report.points ≠ []) :
    ∃ pt ∈ report.points, pt.latency = report.metrics.latency ∧
      pt.resources = report.metrics.resources ∧
      pt.feasible = spec.target.fits report.metrics := by
  obtain ⟨start, v, summary, hstart, -, hcourse, -, hmetrics, -, rfl⟩ := course_of_explore hd h
  have hrecorded : v.progress.points = [] ∨ v.progress.Recorded spec :=
    hcourse.keeps (P := fun progress => progress.points = [] ∨ progress.Recorded spec) hstart
      (.inl rfl) fun hsound hs _ => .inr (hsound.recorded hs)
  obtain ⟨pt, hpt, hlatency, hresources, hfeasible⟩ := hrecorded.resolve_left hpoints
  show ∃ pt ∈ v.progress.points, pt.latency = summary.metrics.latency ∧
    pt.resources = summary.metrics.resources ∧ pt.feasible = spec.target.fits summary.metrics
  rw [hmetrics]
  exact ⟨pt, hpt, hlatency, hresources, hfeasible⟩

/-- **The reported result is one of the evaluated designs, and the frontier covers it.** Take a
    search of the design of a listing that has at least one level. Some point has the latency and
    the hardware that the report ends with, and says whether they are within the budgets; and if
    the latency is known, some point of the frontier is not slower and needs no more hardware of
    any kind. -/
theorem frontier_explore (hd : l.design = .ok d)
    (h : (new spec registry).explore ⟨d, t⟩ = .ok (report, final)) (hlevels : report.levels ≠ []) :
    (∃ pt ∈ report.points, pt.latency = report.metrics.latency ∧
      pt.resources = report.metrics.resources ∧
      (pt.feasible = true ↔
        ∀ k n, spec.target.budgets.get k = some n → report.metrics.resources.get k ≤ n)) ∧
    ∀ n, report.metrics.latency = .known n →
      ∃ pt ∈ report.frontier, (∃ m ≤ n, pt.latency = .known m) ∧
        ∀ k, pt.resources.get k ≤ report.metrics.resources.get k := by
  have hdistinct := Listing.nodup_of_design hd
  have hpoints : report.points ≠ [] := by
    obtain ⟨v, hv, hreports, hpoints, -⟩ := explore_sound hdistinct h
    rw [hreports] at hlevels
    rw [hpoints]
    exact (hv.kept_of_reports hlevels).started
  obtain ⟨pt, hpt, hlatency, hresources, hfeasible⟩ := recorded_of_explore hdistinct h hpoints
  refine ⟨⟨pt, hpt, hlatency, hresources, ?_⟩, fun n hn => ?_⟩
  · rw [hfeasible, Target.fits_iff]
  · have hknown : pt.latency.toOption.isSome = true :=
      Cycles.isSome_toOption_iff.mpr ⟨n, hlatency.trans hn⟩
    obtain ⟨q, hq, hcovers⟩ := exists_mem_frontier hpt hknown
    rw [← hresources]
    exact ⟨q, hq, hcovers.latency n (hlatency.trans hn), hcovers.resources⟩

/-- A search that starts outside its budgets and ends within them, at a latency of 54. -/
theorem frontier_explore_smoothing :
    Smoothing.listing.design = .ok Smoothing.design ∧ ∃ report final,
      (new Smoothing.tight .standard).explore ⟨Smoothing.design, .empty⟩ = .ok (report, final) ∧
      report.levels ≠ [] ∧ report.metrics.latency = .known 54 ∧
      (∃ pt ∈ report.points, pt.latency = .known 54 ∧
        pt.resources = report.metrics.resources) ∧
      ∃ pt ∈ report.frontier, (∃ m ≤ 54, pt.latency = .known m) ∧
        ∀ k, pt.resources.get k ≤ report.metrics.resources.get k := by
  obtain ⟨report, final, hreport, hlevels, -⟩ := Smoothing.explore_tight
  have hlatency : ((new Smoothing.tight .standard).explore ⟨Smoothing.design, .empty⟩).toOption.map
      (fun r => r.1.metrics.latency) = some (.known 54) := by
    decide +kernel
  rw [hreport] at hlatency
  have hlatency : report.metrics.latency = .known 54 := Option.some.inj hlatency
  obtain ⟨⟨pt, hpt, hsame, hresources, -⟩, hcovers⟩ :=
    frontier_explore Smoothing.design_listing hreport hlevels
  exact ⟨Smoothing.design_listing, report, final, hreport, hlevels, hlatency,
    ⟨pt, hpt, hsame.trans hlatency, hresources⟩, hcovers 54 hlatency⟩

end Explorer

end DesignSpace
