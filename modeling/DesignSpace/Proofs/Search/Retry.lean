/-
  Subject:   WHAT GOING BACK TRIES BEFORE IT GIVES UP. A level that is searched again for a later
             one, and does not help, is not gone back to any more. So while nothing fits, the only
             level that is tried again for a level is the one before it.

  * `Explorer.backtrack_stuck`: what keeps a level that does not fit from being helped;
  * `Visit.Unhelped`: how far a search is that nothing has helped, and `retried_iff`: which levels
    it has tried again;
  * `Explorer.Course.unhelped`: it stays so until something fits, or it may not go back any more;
  * `Explorer.retried_explore`: **the last level is helped by the one before it, and by no other**;
  * `Abandoned.not_retried`: a level that is left out.
-/
import DesignSpace.Proofs.Search.Account
import DesignSpace.Proofs.Search.Order

namespace DesignSpace

variable {spec : TargetSpec} {registry : Registry} {d : Design} {t : Table} {v v' : Visit}
  {level : RegionId} {current current' : LevelReport}

namespace Explorer

/-! ## 1. Where going back ends -/

variable {x : Explorer}

/-- Going back is counted. -/
theorem backtracks_le_of_backtrack {fuel : Nat}
    (h : x.backtrack level fuel v current = .ok (v', current')) :
    v.backtracks ≤ v'.backtracks := by
  induction fuel generalizing v current with
  | zero =>
      obtain ⟨rfl, -⟩ := Prod.mk.inj (Except.ok.inj h)
      exact Nat.le_refl _
  | succ fuel ih =>
      obtain ⟨rfl, -⟩ | ⟨place, pending, earlier, again, progress, hc, hpending, hplace, hs,
        hhelps⟩ := backtrack_cases h
      · exact Nat.le_refl _
      by_cases ha : again.feasible = true
      · obtain ⟨report, next, hn⟩ := hhelps ha
        rw [backtrack_of_feasible hc hpending hplace hs ha hn] at h
        exact Nat.le_of_succ_le (ih h)
      · rw [backtrack_of_infeasible hc hpending hplace hs ha] at h
        exact Nat.le_of_succ_le (ih h)

/-- **What keeps a level from being helped**: it fits, or the search may not go back any more, or
    there is no level to go back to. -/
theorem backtrack_stuck
    (h : x.backtrack level (x.spec.options.maxBacktracks - v.backtracks) v current =
      .ok (v, current)) (hmisfit : ¬ current.feasible = true)
    (hleft : v.backtracks < x.spec.options.maxBacktracks) {place : Nat} {pending : List Nat}
    (hpending : v.pending = place :: pending) : v.reports[place]? = none := by
  obtain ⟨fuel, hfuel⟩ : ∃ fuel, x.spec.options.maxBacktracks - v.backtracks = fuel + 1 :=
    ⟨x.spec.options.maxBacktracks - v.backtracks - 1, by omega⟩
  rw [hfuel] at h
  cases hplace : v.reports[place]? with
  | none => rfl
  | some earlier =>
      -- the level is searched again, which counts
      have hsearch := h
      rw [backtrack, if_neg hmisfit, hpending] at hsearch
      simp only [hplace] at hsearch
      obtain ⟨⟨again, progress⟩, hs, hsearch⟩ := Attempt.bind_eq_ok_iff.mp hsearch
      by_cases ha : again.feasible = true
      · obtain ⟨⟨report, next⟩, hn, -⟩ := Attempt.bind_eq_ok_iff.mp ((if_pos ha).symm.trans hsearch)
        rw [backtrack_of_feasible hmisfit hpending hplace hs ha hn] at h
        exact absurd (backtracks_le_of_backtrack h) (Nat.not_succ_le_self _)
      · rw [backtrack_of_infeasible hmisfit hpending hplace hs ha] at h
        exact absurd (backtracks_le_of_backtrack h) (Nat.not_succ_le_self _)

end Explorer

/-! ## 2. A search that nothing has helped -/

/-- The places of the levels that can be gone back to after `n` levels of which none fits. -/
def lastPlace : Nat → List Nat
  | 0 => []
  | n + 1 => [n]

namespace Visit

/-- The levels of the reports. -/
def regions (v : Visit) : List RegionId := v.reports.map LevelReport.region

/-- **How far a search is that nothing has helped.** Between two levels it may go back to the last
    one only. With a level that is not settled yet it has recorded points of that level, and if it
    has gone back, then of the last one. -/
def Unhelped (v : Visit) : Option (RegionId × LevelReport) → Prop
  | none => v.pending = lastPlace v.reports.length ∧ v.backtracks = v.reports.length - 1 ∧
    ∀ pt ∈ v.progress.points, pt.level ∈ v.regions
  | some (level, _) => ∃ old later, v.progress.points = old ++ later ∧
    (∀ pt ∈ old, pt.level ∈ v.regions) ∧
    (v.pending = lastPlace v.reports.length ∧ v.backtracks = v.reports.length - 1 ∧
        Logged [level] later ∨
      ∃ previous, v.regions.getLast? = some previous ∧ v.pending = [] ∧
        v.backtracks = v.reports.length ∧ Logged [level, previous] later)

/-- The level that can be gone back to does not help. -/
theorem Unhelped.giveUp {earlier again : LevelReport} {place : Nat} {pending : List Nat}
    {progress : Progress} (h : v.Unhelped (some (level, current)))
    (hpops : v.pending = place :: pending) (hfound : v.reports[place]? = some earlier)
    (hregion : again.region = earlier.region) {own : List Point}
    (hpoints : progress.points = v.progress.points ++ own) (hown : own ≠ [])
    (hlevel : ∀ pt ∈ own, pt.level = earlier.region) :
    Unhelped ⟨progress, v.backtracks + 1, v.reports.set place again, pending⟩
      (some (level, current)) := by
  obtain ⟨old, later, hold, hmem, ⟨hpending, hbacktracks, hlater⟩ | ⟨_, -, hnil, -, -⟩⟩ := h
  · have hregions : (v.reports.set place again).map LevelReport.region = v.regions :=
      Explorer.map_region_set hfound hregion
    rw [hpops] at hpending
    cases hn : v.reports.length with
    | zero =>
        rw [hn] at hpending
        cases hpending
    | succ n =>
        rw [hn] at hpending hbacktracks
        obtain ⟨rfl, rfl⟩ := List.cons.inj hpending
        refine ⟨old, later ++ own, ?_, ?_, .inr ⟨earlier.region, ?_, rfl, ?_, ?_⟩⟩
        · rw [hpoints, hold, List.append_assoc]
        · rw [regions, hregions]
          exact hmem
        · rw [regions, hregions, regions, List.getLast?_map, List.getLast?_eq_getElem?, hn,
            Nat.add_sub_cancel, hfound]
          rfl
        · show v.backtracks + 1 = (v.reports.set place again).length
          rw [List.length_set, hn, hbacktracks, Nat.add_sub_cancel]
        · exact hlater.snoc hown hlevel
  · rw [hnil] at hpops
    cases hpops

/-- The level is settled, where no level is left to go back to. -/
theorem Unhelped.settle (h : v.Unhelped (some (level, current))) (hregion : current.region = level)
    (hstuck : ∀ place pending, v.pending = place :: pending → v.reports[place]? = none) :
    Unhelped { v with
      reports := v.reports ++ [current], pending := v.reports.length :: v.pending } none := by
  obtain ⟨old, later, hold, hmem, hcases⟩ := h
  have hlength : (v.reports ++ [current]).length = v.reports.length + 1 := by
    rw [List.length_append, List.length_singleton]
  have hregions : ∀ i, i ∈ v.regions ∨ i = level → i ∈ (v.reports ++ [current]).map
      LevelReport.region := by
    intro i hi
    rw [List.map_append, List.map_singleton, hregion, List.mem_append, List.mem_singleton]
    exact hi
  have hpoints : ∀ searched, Logged searched later →
      (∀ i ∈ searched, i ∈ v.regions ∨ i = level) → ∀ pt ∈ v.progress.points,
        pt.level ∈ (v.reports ++ [current]).map LevelReport.region := by
    intro searched hlater hsearched pt hpt
    rw [hold, List.mem_append] at hpt
    rcases hpt with hpt | hpt
    · exact hregions _ (.inl (hmem pt hpt))
    · exact hregions _ (hsearched _ (hlater.exists_at_iff.mp ⟨pt, hpt, rfl⟩))
  rcases hcases with ⟨hpending, hbacktracks, hlater⟩ | ⟨previous, hprevious, hnil, hcount, hlater⟩
  · -- with a report there would be a level to go back to
    have hzero : v.reports.length = 0 := by
      cases hn : v.reports.length with
      | zero => rfl
      | succ n =>
          rw [hn] at hpending
          have hnone := List.getElem?_eq_none_iff.mp (hstuck n [] hpending)
          omega
    rw [hzero] at hpending hbacktracks
    refine ⟨?_, ?_, hpoints _ hlater fun i hi => .inr (List.mem_singleton.mp hi)⟩
    · show v.reports.length :: v.pending = lastPlace (v.reports ++ [current]).length
      rw [hlength, hzero, hpending]
      rfl
    · show v.backtracks = (v.reports ++ [current]).length - 1
      rw [hlength, hzero, hbacktracks]
  · refine ⟨?_, ?_, hpoints _ hlater fun i hi => ?_⟩
    · show v.reports.length :: v.pending = lastPlace (v.reports ++ [current]).length
      rw [hlength, hnil]
      rfl
    · show v.backtracks = (v.reports ++ [current]).length - 1
      rw [hlength, hcount, Nat.add_sub_cancel]
    · rcases List.mem_pair.mp hi with rfl | rfl
      · exact .inr rfl
      · exact .inl (List.mem_of_getLast? hprevious)

/-- **Who is tried again for a level**: of the earlier levels the last one, if there is any and the
    search has gone back for the level. -/
theorem Unhelped.retried_iff (h : v.Unhelped (some (level, current))) (hnodup : v.regions.Nodup)
    (hlevel : level ∉ v.regions) (hcount : v.backtracks = v.reports.length) {r : LevelReport}
    (hr : r ∈ v.reports) :
    (∃ pt ∈ v.progress.points.dropWhile fun pt => pt.level ≠ level, pt.level = r.region) ↔
      v.reports.getLast? = some r := by
  obtain ⟨old, later, hpoints, hold, ⟨-, hcount', -⟩ | ⟨previous, hprevious, -, -, hlater⟩⟩ := h
  · -- without going back there is no earlier level
    have hpos := List.length_pos_of_mem hr
    omega
  have hne : ∀ i ∈ v.regions, i ≠ level := fun i hi heq => hlevel (heq ▸ hi)
  rw [hpoints, hlater.dropWhile_eq fun pt hpt => hne _ (hold pt hpt), hlater.exists_at_iff,
    List.mem_pair, or_iff_right (hne _ (List.mem_map_of_mem hr))]
  obtain ⟨q, hq, rfl⟩ : ∃ q, v.reports.getLast? = some q ∧ q.region = previous := by
    rw [regions, List.getLast?_map] at hprevious
    exact Option.map_eq_some_iff.mp hprevious
  rw [hq, Option.some.injEq]
  constructor
  · intro hregion
    exact (List.inj_on_of_nodup_map hnodup hr (List.mem_of_getLast? hq) hregion).symm
  · intro heq
    rw [heq]

end Visit

namespace Explorer

variable {start final : Annotated} {ahead : List RegionId} {cur : Option (RegionId × LevelReport)}

/-- **Until something fits, or the search may not go back any more, nothing helps**, and the level
    that can be gone back to is the last one. -/
theorem Course.unhelped (h : Course (new spec registry) start ahead v cur)
    (hstart : start.Settled spec.estimator d) :
    spec.target.fits (spec.estimator.rootMetrics v.progress.annotated.design) = true ∨
      spec.options.maxBacktracks ≤ v.backtracks ∨ v.Unhelped cur := by
  induction h with
  | start => exact .inr (.inr ⟨rfl, rfl, nofun⟩)
  | search hcourse hs ih =>
      have hsound := (hcourse.sound hstart).1
      rcases ih with hfits | hspent | ⟨hpending, hbacktracks, hpoints⟩
      · exact .inl ((hsound.searched hs).fits_of_fits hfits)
      · exact .inr (.inl hspent)
      · obtain ⟨own, hown, hne, hlevel⟩ := hsound.points_at hs
        exact .inr (.inr ⟨_, own, hown, hpoints, .inl ⟨hpending, hbacktracks, own, [],
          (List.append_nil own).symm, hne, hlevel, rfl⟩⟩)
  | giveUp hcourse hmisfit hleft hpops hfound hs hvain ih =>
      obtain ⟨hsound, hfits⟩ := hcourse.sound hstart
      rcases ih with hfits' | hspent | hun
      · exact absurd ((hfits _ _ rfl).trans hfits') hmisfit
      · exact absurd hleft (Nat.not_lt.mpr hspent)
      · obtain ⟨own, hown, hne, hlevel⟩ := hsound.points_at hs
        exact .inr (.inr (hun.giveUp hpops hfound (region_of_searchLevel hs) hown hne hlevel))
  | help hcourse _ _ _ _ hs hhelps hn ih =>
      have hsearched := (hcourse.sound hstart).1.searched hs
      exact .inl ((hsearched.sound.searched hn).fits_of_fits (hsearched.fits.symm.trans hhelps))
  | settle hcourse hended ih =>
      rcases ih with hfits | hspent | hun
      · exact .inl hfits
      · exact .inr (.inl hspent)
      · rename_i level _ v current
        by_cases hfit : current.feasible = true
        · exact .inl (((hcourse.sound hstart).2 _ _ rfl).symm.trans hfit)
        by_cases hleft : v.backtracks < spec.options.maxBacktracks
        · exact .inr (.inr (hun.settle (hcourse.regions.2 _ _ rfl) fun _ _ hpending =>
            backtrack_stuck hended hfit hleft hpending))
        · exact .inr (.inl (Nat.not_lt.mp hleft))

/-! ## 3. The whole search -/

variable {report : SearchReport} {l : Listing} {earlier : List LevelReport} {last : LevelReport}

/-- **What a search has tried when it gives up.** Take a search of the design of a listing, with any
    target and any operators, of which the last level does not fit although the search may go back
    more often. It has gone back once for each level but the first; and of the earlier levels the
    one before the last, and no other, has points after the first point of the last level. -/
theorem retried_explore (hd : l.design = .ok d)
    (h : (new spec registry).explore ⟨d, t⟩ = .ok (report, final))
    (hlevels : report.levels = earlier ++ [last]) (hmisfit : last.feasible = false)
    (hleft : report.backtracks < spec.options.maxBacktracks) :
    report.backtracks + 1 = report.levels.length ∧
    ∀ r ∈ earlier,
      (∃ pt ∈ report.points.dropWhile fun pt => pt.level ≠ last.region, pt.level = r.region) ↔
        earlier.getLast? = some r := by
  obtain ⟨start, v, summary, hstart, -, hcourse, -, -, -, rfl⟩ :=
    course_of_explore (Listing.nodup_of_design hd) h
  have hlevels : v.reports = earlier ++ [last] := hlevels
  have hleft : v.backtracks < spec.options.maxBacktracks := hleft
  have hunhelped := hcourse.unhelped hstart
  obtain ⟨level, before, current, hbefore, rfl⟩ := hcourse.settled (by rw [hlevels]; simp)
  obtain ⟨rfl, hlast⟩ := List.append_inj' hlevels rfl
  obtain rfl := (List.cons.inj hlast).1
  obtain ⟨-, hfits⟩ := hbefore.sound hstart
  have hnot : ¬ spec.target.fits (spec.estimator.rootMetrics before.progress.annotated.design) =
      true := fun hfit => Bool.false_ne_true (hmisfit.symm.trans ((hfits _ _ rfl).trans hfit))
  obtain ⟨-, hcount, -⟩ := (hunhelped.resolve_left hnot).resolve_left (Nat.not_le.mpr hleft)
  have hcount : before.backtracks = before.reports.length := by
    rw [hcount, List.length_append]
    rfl
  refine ⟨?_, fun r hr => ?_⟩
  · show before.backtracks + 1 = (before.reports ++ [current]).length
    rw [hcount, List.length_append, List.length_singleton]
  have hun := ((hbefore.unhelped hstart).resolve_left hnot).resolve_left (Nat.not_le.mpr hleft)
  obtain ⟨hnodup, hapart⟩ := hbefore.nodup_regions hstart.complete.distinct
  have hlevel : level ∉ before.regions := by
    intro hmem
    obtain ⟨q, hq, rfl⟩ := List.mem_map.mp hmem
    exact (hapart q hq).1 (List.mem_singleton_self _)
  rw [hbefore.regions.2 _ _ rfl]
  exact hun.retried_iff hnodup hlevel hcount hr

end Explorer

/-! ## 4. A level that is left out -/

namespace Abandoned

/-- One addition. -/
def body : Block := { ops := [⟨.add, 32⟩] }

/-- Two loops, one after the other. -/
def listing : Listing where
  name := "abandoned"
  records :=
    [⟨⟨0, .func { name := "top" }, none⟩, none⟩,
     ⟨⟨1, .loop { iv := "i", trip := .static 4 }, none⟩, some 0⟩, ⟨⟨2, .block body, none⟩, some 1⟩,
     ⟨⟨3, .loop { iv := "j", trip := .static 4 }, none⟩, some 0⟩, ⟨⟨4, .block body, none⟩, some 3⟩]

/-- The loops as a tree. -/
def design : Design where
  name := "abandoned"
  root := ⟨0, .func { name := "top" }, none⟩
  below :=
    .cons ⟨1, .loop { iv := "i", trip := .static 4 }, none⟩
      (.cons ⟨2, .block body, none⟩ .nil .nil)
      (.cons ⟨3, .loop { iv := "j", trip := .static 4 }, none⟩
        (.cons ⟨4, .block body, none⟩ .nil .nil) .nil)
  arrays := []

/-- A target without a unit that adds. -/
def hopeless : TargetSpec where
  target := { budgets := { computeUnits := some 0 } }

theorem design_listing : listing.design = .ok design := by decide +kernel

/-- No level fits, and the search goes back twice. -/
theorem explore_hopeless : ∃ report final,
    (Explorer.new hopeless .standard).explore ⟨design, .empty⟩ = .ok (report, final) ∧
      (report.levels.map fun r => (r.region, r.feasible)) = [(1, false), (3, false), (0, false)] ∧
      report.backtracks = 2 ∧
      (report.points.dropWhile fun pt => pt.level ≠ 0).any (fun pt => pt.level = 1) = false := by
  obtain ⟨report, final, hreport, heq⟩ := Explorer.exists_report_eq
    (x := Explorer.new hopeless .standard) (a := ⟨design, .empty⟩)
    (c := ([(1, false), (3, false), (0, false)], 2, false))
    (fun r => ((r.levels.map fun r => (r.region, r.feasible)), r.backtracks,
      (r.points.dropWhile fun pt => pt.level ≠ 0).any fun pt => pt.level = 1)) (by decide +kernel)
  obtain ⟨hlevels, hrest⟩ := Prod.mk.inj heq
  obtain ⟨hbacktracks, hpoints⟩ := Prod.mk.inj hrest
  exact ⟨report, final, hreport, hlevels, hbacktracks, hpoints⟩

/-- **The first level is not searched again for the last one**, which does not fit, although the
    search has gone back twice only and may do so eight times. -/
theorem not_retried : listing.design = .ok design ∧ hopeless.options.maxBacktracks = 8 ∧
    ∃ report final,
      (Explorer.new hopeless .standard).explore ⟨design, .empty⟩ = .ok (report, final) ∧
      (report.levels.map fun r => (r.region, r.feasible)) = [(1, false), (3, false), (0, false)] ∧
      report.backtracks = 2 ∧
      ¬ ∃ pt ∈ report.points.dropWhile fun pt => pt.level ≠ 0, pt.level = 1 := by
  obtain ⟨report, final, hreport, hlevels, hbacktracks, hpoints⟩ := explore_hopeless
  refine ⟨design_listing, rfl, report, final, hreport, hlevels, hbacktracks, fun h => ?_⟩
  obtain ⟨pt, hpt, hlevel⟩ := h
  exact List.any_eq_false.mp hpoints pt hpt (decide_eq_true hlevel)

end Abandoned

/-- Of the two loops the second one is searched again for the function around them. -/
theorem Explorer.retried_explore_abandoned : Abandoned.listing.design = .ok Abandoned.design ∧
    ∃ report final earlier last,
      (new Abandoned.hopeless .standard).explore ⟨Abandoned.design, .empty⟩ =
        .ok (report, final) ∧
      report.levels = earlier ++ [last] ∧ last.feasible = false ∧ report.backtracks < 8 ∧
      report.backtracks + 1 = report.levels.length ∧
      ∀ r ∈ earlier,
        (∃ pt ∈ report.points.dropWhile fun pt => pt.level ≠ last.region,
          pt.level = r.region) ↔ earlier.getLast? = some r := by
  obtain ⟨report, final, hreport, hlevels, hbacktracks, -⟩ := Abandoned.explore_hopeless
  obtain ⟨earlier, last, hlast⟩ : ∃ earlier last, report.levels = earlier ++ [last] := by
    refine ⟨_, _, (List.dropLast_append_getLast (l := report.levels) fun hnil => ?_).symm⟩
    rw [hnil] at hlevels
    cases hlevels
  have hmisfit : last.feasible = false := by
    have hfeasible := congrArg (List.map Prod.snd) hlevels
    rw [hlast, List.map_map, List.map_append] at hfeasible
    have hfeasible : earlier.map LevelReport.feasible ++ [last.feasible] =
        [false, false] ++ [false] := hfeasible
    exact (List.cons.inj (List.append_inj_right' hfeasible rfl)).1
  have hleft : report.backtracks < 8 := by
    rw [hbacktracks]
    decide
  obtain ⟨hcount, hretried⟩ := retried_explore Abandoned.design_listing hreport hlast hmisfit hleft
  exact ⟨Abandoned.design_listing, report, final, earlier, last, hreport, hlast, hmisfit, hleft,
    hcount, hretried⟩

end DesignSpace
