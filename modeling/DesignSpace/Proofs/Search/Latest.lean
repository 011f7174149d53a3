/-
  Subject:   WHETHER THE LAST REPORT IS STILL TRUE. The report of a level is made when the level has
             been searched. If it does not fit, earlier levels are searched again, which changes the
             design; but only where one of them helps is the level searched again as well, and has
             a new report.

  * `metrics_of_searchLevel`, `latest_of_searchLevel`: what the search of a level leaves;
  * `Visit.Told`: when the report of a level has the metrics of the design as it stands;
  * `Explorer.Course.told`: every course keeps to that;
  * `Explorer.current_explore`: **a last level that nothing was searched after is reported as it
    is**, and one that fits is among them;
  * `Held.not_current`: a report of a design that there is no more.
-/
import DesignSpace.Proofs.Search.Order

namespace DesignSpace

variable {spec : TargetSpec} {registry : Registry} {d : Design} {t : Table} {level : RegionId}
  {progress next : Progress} {current : LevelReport}

/-! ## 1. One level -/

/-- The level that was searched last: that of the last point. -/
def latest? (points : List Point) : Option RegionId := points.getLast?.map Point.level

/-- The metrics that are reported of a level are those that it then has. -/
theorem Explorer.metrics_of_searchLevel {x : Explorer} {report : LevelReport}
    (h : x.searchLevel level progress = .ok (report, next)) :
    report.metrics = (next.annotated.table.metrics? level).getD .empty := by
  obtain ⟨run, -, h⟩ := Attempt.bind_eq_ok_iff.mp h
  obtain ⟨rfl, rfl⟩ := Prod.mk.inj (Except.ok.inj h)
  rfl

/-- After the search of a level that level is the latest one. -/
theorem Progress.Sound.latest_of_searchLevel {report : LevelReport} (h : progress.Sound spec d)
    (hs : (Explorer.new spec registry).searchLevel level progress = .ok (report, next)) :
    latest? next.points = some level := by
  obtain ⟨own, hpoints, hown, hlevel⟩ := h.points_at hs
  rw [latest?, hpoints, List.getLast?_append_of_ne_nil _ hown, List.getLast?_eq_getLast_of_ne_nil
    hown, Option.map_some, hlevel _ (List.getLast_mem hown)]

/-! ## 2. The report of a level that is not settled yet -/

/-- **When the report of a level is true**: if the level fits, or the search has never gone back,
    the level is the latest one; and of the latest one the metrics are those of the table. -/
structure Visit.Told (v : Visit) (level : RegionId) (current : LevelReport) : Prop where
  latest : current.feasible = true ∨ v.backtracks = 0 → latest? v.progress.points = some level
  metrics : latest? v.progress.points = some level →
    current.metrics = (v.progress.annotated.table.metrics? level).getD .empty

namespace Explorer

variable {start final : Annotated} {ahead : List RegionId} {v : Visit}
  {cur : Option (RegionId × LevelReport)}

/-- A level that has just been searched is the latest one. -/
theorem told_of_searchLevel (h : progress.Sound spec d)
    (hs : (new spec registry).searchLevel level progress = .ok (current, next)) (backtracks : Nat)
    (reports : List LevelReport) (pending : List Nat) :
    Visit.Told ⟨next, backtracks, reports, pending⟩ level current where
  latest _ := h.latest_of_searchLevel hs
  metrics _ := metrics_of_searchLevel hs

/-- **Every course keeps to that.** Where an earlier level does not help, it is the latest one, and
    not the level that it was searched for. -/
theorem Course.told (h : Course (new spec registry) start ahead v cur)
    (hstart : start.Settled spec.estimator d) :
    ∀ level current, cur = some (level, current) → v.Told level current := by
  intro level current hcur
  cases h with
  | start => cases hcur
  | search hcourse hs =>
      obtain ⟨rfl, rfl⟩ := Prod.mk.inj (Option.some.inj hcur)
      exact told_of_searchLevel (hcourse.sound hstart).1 hs _ _ _
  | @giveUp _ _ _ _ earlier _ _ _ _ hcourse hmisfit _ _ hfound hs _ =>
      obtain ⟨rfl, rfl⟩ := Prod.mk.inj (Option.some.inj hcur)
      have hlatest := (hcourse.sound hstart).1.latest_of_searchLevel hs
      refine ⟨fun hor => ?_, fun hlevel => ?_⟩
      · rcases hor with hfit | hzero
        · exact absurd hfit hmisfit
        · cases hzero
      · have hregion := Option.some.inj (hlatest.symm.trans hlevel)
        have hapart := (hcourse.nodup_regions hstart.complete.distinct).2 earlier
          (List.mem_of_getElem? hfound)
        exact absurd (hregion ▸ List.mem_singleton_self _) hapart.1
  | help hcourse _ _ _ _ hs _ hn =>
      obtain ⟨rfl, rfl⟩ := Prod.mk.inj (Option.some.inj hcur)
      exact told_of_searchLevel ((hcourse.sound hstart).1.searched hs).sound hn _ _ _
  | settle => cases hcur

/-! ## 3. The whole search -/

variable {report : SearchReport} {l : Listing} {earlier : List LevelReport} {last : LevelReport}

/-- **The last report is true if nothing was searched after its level.** Take a search of the design
    of a listing, with any target and any operators, of which the last level is the root. If that
    level fits, or the search has never gone back, or the last point is one of that level, the
    metrics that are reported of it are those of the final design. -/
theorem current_explore (hd : l.design = .ok d)
    (h : (new spec registry).explore ⟨d, t⟩ = .ok (report, final))
    (hlevels : report.levels = earlier ++ [last]) (hroot : last.region = d.root.id)
    (hlatest : last.feasible = true ∨ report.backtracks = 0 ∨
      latest? report.points = some last.region) :
    last.metrics = report.metrics := by
  obtain ⟨start, v, summary, hstart, -, hcourse, hsound, hmetrics, -, rfl⟩ :=
    course_of_explore (Listing.nodup_of_design hd) h
  have hlevels : v.reports = earlier ++ [last] := hlevels
  obtain ⟨level, before, current, hbefore, rfl⟩ := hcourse.settled (by rw [hlevels]; simp)
  obtain ⟨-, hlast⟩ := List.append_inj' hlevels rfl
  obtain rfl := (List.cons.inj hlast).1
  have hregion := hbefore.regions.2 _ _ rfl
  have htold := hbefore.told hstart _ _ rfl
  have hlatest : latest? before.progress.points = some level := by
    rcases hlatest with hfit | hzero | hlatest
    · exact htold.latest (.inl hfit)
    · exact htold.latest (.inr hzero)
    · exact hregion ▸ hlatest
  have hbare : d.bare.root.id = before.progress.annotated.design.bare.root.id :=
    congrArg (fun c => c.root.id) hsound.settled.bare.symm
  have hid : level = before.progress.annotated.design.root.id :=
    hregion.symm.trans (hroot.trans hbare)
  calc current.metrics
      = (before.progress.annotated.table.metrics? level).getD .empty := htold.metrics hlatest
    _ = spec.estimator.rootMetrics before.progress.annotated.design := by
        rw [Table.metrics?, hsound.settled.complete.full, hid, Estimator.estimate?_root]
        rfl
    _ = summary.metrics := hmetrics.symm

/-- The last report of a search of two loops and their function. -/
theorem current_explore_smoothing : Smoothing.listing.design = .ok Smoothing.design ∧
    ∃ report final earlier last,
      (new Smoothing.tight .standard).explore ⟨Smoothing.design, .empty⟩ = .ok (report, final) ∧
      report.levels = earlier ++ [last] ∧ last.region = Smoothing.design.root.id ∧
      last.feasible = true ∧ last.metrics = report.metrics := by
  obtain ⟨report, final, hreport, hlast⟩ := exists_report_eq
    (x := new Smoothing.tight .standard) (a := ⟨Smoothing.design, .empty⟩) (c := some (0, true))
    (fun r => r.levels.getLast?.map fun r => (r.region, r.feasible)) (by decide +kernel)
  obtain ⟨last, hlevels, hlast⟩ := Option.map_eq_some_iff.mp hlast
  obtain ⟨hroot, hfeasible⟩ := Prod.mk.inj hlast
  obtain ⟨earlier, hlevels⟩ := List.getLast?_eq_some_iff.mp hlevels
  exact ⟨Smoothing.design_listing, report, final, earlier, last, hreport, hlevels, hroot, hfeasible,
    current_explore Smoothing.design_listing hreport hlevels hroot (.inl hfeasible)⟩

end Explorer

/-! ## 4. A report of a design that there is no more -/

namespace Held

/-- A loop of two rounds, both at once. -/
def both : Loop := { iv := "i", trip := .static 2, directives := ⟨false, 2, none⟩ }

/-- One addition to one element. -/
def body : Block where
  ops := [⟨.add, 32⟩]
  accesses := [⟨"a", .read, [⟨"0", []⟩]⟩]

/-- A function of one loop. -/
def listing : Listing where
  name := "held"
  records :=
    [⟨⟨0, .func { name := "top" }, none⟩, none⟩, ⟨⟨1, .loop both, none⟩, some 0⟩,
     ⟨⟨2, .block body, none⟩, some 1⟩]
  arrays := [{ name := "a", shape := [1] }]

/-- The function as a tree. -/
def design : Design where
  name := "held"
  root := ⟨0, .func { name := "top" }, none⟩
  below := .cons ⟨1, .loop both, none⟩ (.cons ⟨2, .block body, none⟩ .nil .nil) .nil
  arrays := listing.arrays

/-- A target without a unit that adds. -/
def hopeless : TargetSpec where
  target := { budgets := { computeUnits := some 0 } }

theorem design_listing : listing.design = .ok design := by decide +kernel

/-- **The last report is of a design that there is no more.** The loop is searched again for the
    function, which it does not help, and is faster from then on; the report of the function has the
    latency from before. -/
theorem not_current : listing.design = .ok design ∧ ∃ report final last,
    (Explorer.new hopeless .standard).explore ⟨design, .empty⟩ = .ok (report, final) ∧
    report.levels.getLast? = some last ∧ last.region = design.root.id ∧
    last.metrics.latency = .known 6 ∧ report.metrics.latency = .known 4 ∧
    ¬ last.metrics = report.metrics := by
  obtain ⟨report, final, hreport, heq⟩ := Explorer.exists_report_eq
    (x := Explorer.new hopeless .standard) (a := ⟨design, .empty⟩)
    (c := (some (0, .known 6), .known 4))
    (fun r => (r.levels.getLast?.map fun r => (r.region, r.metrics.latency), r.metrics.latency))
    (by decide +kernel)
  obtain ⟨hlast, hlatency⟩ := Prod.mk.inj heq
  obtain ⟨last, hlevels, hlast⟩ := Option.map_eq_some_iff.mp hlast
  obtain ⟨hroot, hbefore⟩ := Prod.mk.inj hlast
  refine ⟨design_listing, report, final, last, hreport, hlevels, hroot, hbefore, hlatency, ?_⟩
  intro hsame
  rw [hsame, hlatency] at hbefore
  cases hbefore

end Held

end DesignSpace
