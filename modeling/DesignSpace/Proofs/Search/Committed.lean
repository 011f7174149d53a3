/-
  Subject:   THE REPORT TELLS OF THE DESIGN THAT A SEARCH ENDS WITH. Different levels have different
             parameters, and what is tried in vain is taken back. So what the report of a level says
             stays true while other levels are searched, and nothing changes that no report names.

  * `Explorer.mem_assignment_iff`: the moves that are reported of a level;
  * `Progress.Sound.setting_searchLevel`: **the search of a level leaves other levels alone**;
  * `Explorer.committed_explore`: **the report tells of the final design, and of all that
    changed.**
-/
import DesignSpace.Proofs.Operator.Ordered
import DesignSpace.Proofs.Parameter.Untouched
import DesignSpace.Proofs.Search.Order
import DesignSpace.Proofs.Search.Writes

namespace DesignSpace

variable {spec : TargetSpec} {d : Design} {level j : RegionId} {progress next : Progress}
  {report : LevelReport} {o : Operator} {p : Parameter} {s : Setting} {a b : Annotated}

/-! ## 1. Reported moves -/

namespace Registry

/-- Whatever the options name, all standard operators take part in a search. -/
theorem mem_ordered_standard (ho : o ∈ standard.operators) (priority : List String) :
    o ∈ standard.ordered priority :=
  mem_ordered (nodup_ofList _) ho priority

end Registry

namespace Explorer

/-- The moves of a level: each parameter that it has, with its value. -/
theorem mem_assignment_iff {x : Explorer} {m : Move} :
    m ∈ x.assignment a level ↔ ∃ o ∈ x.operators, ∃ p ∈ o.targets a level, ∃ s,
      a.design.setting p = .ok s ∧ m = ⟨o.name, p, s⟩ := by
  unfold assignment
  rw [List.mem_flatMap]
  refine exists_congr fun o => and_congr_right fun _ => ?_
  rw [List.mem_filterMap]
  refine exists_congr fun p => and_congr_right fun _ => ?_
  cases a.design.setting p <;> simp [eq_comm]

/-- The moves that are reported of a level are those of the design that its search leaves. -/
theorem moves_of_searchLevel {x : Explorer}
    (h : x.searchLevel level progress = .ok (report, next)) :
    report.moves = x.assignment next.annotated level := by
  obtain ⟨run, -, h⟩ := Attempt.bind_eq_ok_iff.mp h
  obtain ⟨rfl, rfl⟩ := Prod.mk.inj (Except.ok.inj h)
  rfl

end Explorer

/-! ## 2. One level -/

namespace Progress.Sound

/-- **The search of a level leaves the parameters of other levels alone.** -/
theorem setting_searchLevel (h : progress.Sound spec d)
    (hs : (Explorer.new spec .standard).searchLevel level progress = .ok (report, next))
    (hp : p.At d j) (hj : j ≠ level) (hset : progress.annotated.design.setting p = .ok s) :
    next.annotated.design.setting p = .ok s := by
  refine h.ofWrites hs (P := fun c => c.setting p = .ok s) ?_ ?_ hset
  · exact fun _ _ halike hc => (halike.setting_eq p).trans hc
  · intro a b o q s' ha ho hq hw hc
    have hqp : p ≠ q := fun heq => hj ((hp.of_bare ha.bare).unique
      (heq ▸ Registry.at_of_mem_standard ha.rules ho hq))
    exact (Design.setting_write_of_ne hw hqp).mpr hc

end Progress.Sound

/-- The tiles of bounded loops are among all parameters that the standard operators have. -/
theorem Annotated.Settled.tilesAmong {e : Estimator} {ps : List Parameter} (ha : a.Settled e d)
    (hps : ∀ level, ∀ o ∈ Registry.standard.operators, ∀ p ∈ o.targets a level, p ∈ ps) :
    a.design.TilesAmong ps := by
  intro r hr l hk hbounded
  obtain ⟨trip, htrip⟩ := Option.isSome_iff_exists.mp hbounded
  obtain ⟨n, hn, rfl⟩ := List.mem_map.mp hr
  obtain ⟨m, hm⟩ := Forest.exists_find?_of_mem_ids (Forest.mem_ids_of_mem_nests hn)
  obtain ⟨hmem, hid⟩ := Forest.find?_mem hm
  obtain rfl := Forest.eq_of_id_eq ha.complete.distinct hmem hn hid
  have hstatic : a.isStaticLoop m.region.id = true :=
    Annotated.isStaticLoop_iff.mpr ⟨m, l, trip, hm, hk, htrip⟩
  refine hps m.region.id tileOperator (Registry.mem_standard_iff.mpr (by simp)) _ ?_
  show Parameter.tile m.region.id ∈
    if a.isStaticLoop m.region.id then [Parameter.tile m.region.id] else []
  rw [if_pos hstatic]
  exact List.mem_singleton_self _

/-! ## 3. The whole search -/

/-- The parameters that a report names, level by level. -/
def SearchReport.parameters (r : SearchReport) : List Parameter :=
  r.levels.flatMap fun level => level.moves.map Move.parameter

namespace Explorer

variable {start final : Annotated} {v : Visit} {report : SearchReport} {l : Listing} {t : Table}

/-- **All reports are true of the design that a search has come to.** -/
theorem Course.settings (h : Course (new spec .standard) start [] v none)
    (hstart : start.Settled spec.estimator d) : ∀ r ∈ v.reports, ∀ m ∈ r.moves,
      v.progress.annotated.design.setting m.parameter = .ok m.setting := by
  have hlasting := h.lasting hstart (P := fun progress r => ∀ m ∈ r.moves,
    m.parameter.At d r.region ∧
      progress.annotated.design.setting m.parameter = .ok m.setting) ?_ ?_
  · exact fun r hr m hm => (hlasting.1 r hr m hm).2
  · intro progress next level report hsound hs m hm
    have hsettled := (hsound.searched hs).sound.settled
    rw [moves_of_searchLevel hs] at hm
    obtain ⟨o, ho, p, hp, s, hset, rfl⟩ := mem_assignment_iff.mp hm
    refine ⟨?_, hset⟩
    rw [region_of_searchLevel hs]
    exact (Registry.at_of_mem_standard hsettled.rules (Registry.mem_of_mem_ordered ho) hp).of_bare
      hsettled.bare.symm
  · intro progress next level report hsound hs r hne hr m hm
    obtain ⟨hat, hset⟩ := hr m hm
    exact ⟨hat, hsound.setting_searchLevel hs hat hne hset⟩

/-- **Every parameter that a search may change is in a report.** -/
theorem Course.names (h : Course (new spec .standard) start [] v none)
    (hstart : start.Settled spec.estimator d) (ha : a.Settled spec.estimator d)
    (ho : o ∈ Registry.standard.operators) (hp : p ∈ o.targets a level) :
    ∃ r ∈ v.reports, p ∈ r.moves.map Move.parameter := by
  have hreports := (h.reports hstart (Q := fun r => ∀ p ∈ o.targets start r.region,
    p ∈ r.moves.map Move.parameter) ?_).1
  · have hbare := ha.bare.trans hstart.bare.symm
    have hlevel : level ∈ v.reports.map LevelReport.region := by
      rw [h.regions_eq, ← levels_of_bare hbare]
      exact mem_levels_of_target ho hp
    obtain ⟨r, hr, rfl⟩ := List.mem_map.mp hlevel
    exact ⟨r, hr, hreports r hr p (Registry.targets_of_bare ho hbare _ ▸ hp)⟩
  · intro progress next level report hsound hs q hq
    have hsettled := (hsound.searched hs).sound.settled
    rw [region_of_searchLevel hs,
      Registry.targets_of_bare ho (hstart.bare.trans hsettled.bare.symm)] at hq
    obtain ⟨hexact, -⟩ := Registry.exact_of_mem_standard hsettled.complete.distinct hsettled.rules
      ho hq
    obtain ⟨s, hs'⟩ := hexact.readable
    rw [moves_of_searchLevel hs]
    exact List.mem_map.mpr ⟨⟨o.name, q, s⟩, mem_assignment_iff.mpr
      ⟨o, Registry.mem_ordered_standard ho _, q, hq, s, hs', rfl⟩, rfl⟩

/-- **A search changes nothing but what some parameters name**, if these are all that the standard
    operators have. -/
theorem Course.without_eq {ps : List Parameter} (h : Course (new spec .standard) start [] v none)
    (hstart : start.Settled spec.estimator d) (hdesign : start.design = d)
    (hps : ∀ a : Annotated, a.Settled spec.estimator d → ∀ level,
      ∀ o ∈ Registry.standard.operators, ∀ p ∈ o.targets a level, p ∈ ps) :
    v.progress.annotated.design.listing.without ps = d.listing.without ps := by
  refine h.keeps (P := fun progress =>
    progress.annotated.design.listing.without ps = d.listing.without ps) hstart ?_ ?_
  · show start.design.listing.without ps = d.listing.without ps
    rw [hdesign]
  · intro progress next level report hsound hs hsame
    refine hsound.ofWrites hs (P := fun c => c.listing.without ps = d.listing.without ps) ?_ ?_
      hsame
    · intro a b ha hb halike hc
      exact (halike.without_eq (ha.tilesAmong (hps a ha)) (hb.tilesAmong (hps b hb))).trans hc
    · intro a b o p s ha ho hp hw hc
      exact (Design.without_write hw (hps a ha _ o ho p hp)).trans hc

/-- **The report describes the design that was committed.** Take a search of the design of a listing
    with the standard operators, whatever became of the levels on the way. There is one report for
    each level, in the order of the levels. Each value in a report is the value that its parameter
    has in the final design. The final design keeps all rules, and its listing is that of the design
    which the search started from, but for directives and banks that some report names. -/
theorem committed_explore (hd : l.design = .ok d)
    (h : (new spec .standard).explore ⟨d, t⟩ = .ok (report, final)) :
    report.levels.map LevelReport.region = (new spec .standard).levels ⟨d, t⟩ ∧
    (∀ r ∈ report.levels, ∀ m ∈ r.moves, final.design.setting m.parameter = .ok m.setting) ∧
    final.design.check = .ok () ∧
    final.design.listing.without report.parameters = d.listing.without report.parameters := by
  obtain ⟨start, v, summary, hstart, hdesign, hcourse, hsound, -, hfinal, rfl⟩ :=
    course_of_explore (Listing.nodup_of_design hd) h
  rw [hfinal]
  refine ⟨?_, hcourse.settings hstart, hsound.settled.rules, ?_⟩
  · rw [← levels_of_bare (a := start) (congrArg Design.bare hdesign)]
    exact hcourse.regions_eq
  · refine hcourse.without_eq hstart hdesign fun a ha level o ho p hp => ?_
    obtain ⟨r, hr, hmem⟩ := hcourse.names hstart ha ho hp
    exact List.mem_flatMap.mpr ⟨r, hr, hmem⟩

/-- The report of a search of two loops and their function. -/
theorem committed_explore_smoothing :
    Smoothing.listing.design = .ok Smoothing.design ∧
      (new Smoothing.tight .standard).levels ⟨Smoothing.design, .empty⟩ = [1, 3, 0] ∧
      ∃ report final,
        (new Smoothing.tight .standard).explore ⟨Smoothing.design, .empty⟩ = .ok (report, final) ∧
        report.levels.map LevelReport.region = [1, 3, 0] ∧
        (∀ r ∈ report.levels, ∀ m ∈ r.moves,
          final.design.setting m.parameter = .ok m.setting) ∧
        final.design.check = .ok () ∧
        final.design.listing.without report.parameters =
          Smoothing.design.listing.without report.parameters := by
  obtain ⟨report, final, hreport, -, -⟩ := Smoothing.explore_tight
  have hlevels : (new Smoothing.tight .standard).levels ⟨Smoothing.design, .empty⟩ = [1, 3, 0] := by
    decide +kernel
  obtain ⟨hregions, hsettings, hcheck, hlisting⟩ :=
    committed_explore Smoothing.design_listing hreport
  exact ⟨Smoothing.design_listing, hlevels, report, final, hreport, hregions.trans hlevels,
    hsettings, hcheck, hlisting⟩

end Explorer

end DesignSpace
