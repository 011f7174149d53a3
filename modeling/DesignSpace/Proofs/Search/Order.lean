/-
  Subject:   WHICH LEVELS A SEARCH REPORTS, AND IN WHICH ORDER. The reports are those of the levels,
             in their order, however often a level is searched again; and a search of a level leaves
             points of that level only.

  * `Explorer.Course.regions`: **the reports follow the levels**;
  * `Explorer.Course.lasting`: what the search of a level says of itself, and searches of other
    levels keep, all reports say in the end;
  * `Progress.Sound.points_at`: the search of a level leaves points of that level;
  * `Logged`: the points of searches, one after the other.
-/
import DesignSpace.Proofs.Search.Course
import DesignSpace.Proofs.Search.Levels

namespace DesignSpace

/-! ## 1. The reports -/

namespace Explorer

variable {x : Explorer} {level : RegionId} {progress next : Progress} {report : LevelReport}

/-- The report of a level is about that level. -/
theorem region_of_searchLevel (h : x.searchLevel level progress = .ok (report, next)) :
    report.region = level := by
  obtain ⟨run, -, h⟩ := Attempt.bind_eq_ok_iff.mp h
  obtain ⟨rfl, -⟩ := Prod.mk.inj (Except.ok.inj h)
  rfl

/-- A level that is searched again keeps its place. -/
theorem map_region_set {reports : List LevelReport} {place : Nat} {earlier again : LevelReport}
    (found : reports[place]? = some earlier) (hregion : again.region = earlier.region) :
    (reports.set place again).map LevelReport.region = reports.map LevelReport.region := by
  have hplace : (reports.map LevelReport.region)[place]? = some again.region := by
    rw [List.getElem?_map, found, hregion]
    rfl
  obtain ⟨hlt, hget⟩ := List.getElem?_eq_some_iff.mp hplace
  rw [List.map_set, ← hget, List.set_getElem_self]

namespace Course

variable {start : Annotated} {ahead : List RegionId} {v : Visit} {current : LevelReport}
  {cur : Option (RegionId × LevelReport)}

/-- **The reports follow the levels**: those that are settled, the one that is searched, and those
    still to come are the levels of the search, in their order. -/
theorem regions (h : Course x start ahead v cur) :
    v.reports.map LevelReport.region ++ cur.toList.map Prod.fst ++ ahead = x.levels start ∧
      ∀ level current, cur = some (level, current) → current.region = level := by
  induction h with
  | start => exact ⟨rfl, nofun⟩
  | search _ hs ih =>
      refine ⟨by simpa using ih.1, fun _ _ hcur => ?_⟩
      obtain ⟨rfl, rfl⟩ := Prod.mk.inj (Option.some.inj hcur)
      exact region_of_searchLevel hs
  | giveUp _ _ _ _ hfound hs _ ih =>
      rw [map_region_set hfound (region_of_searchLevel hs)]
      exact ih
  | help _ _ _ _ hfound hs _ hn ih =>
      rw [map_region_set hfound (region_of_searchLevel hs)]
      refine ⟨ih.1, fun _ _ hcur => ?_⟩
      obtain ⟨rfl, rfl⟩ := Prod.mk.inj (Option.some.inj hcur)
      exact region_of_searchLevel hn
  | settle _ _ ih =>
      have hregion := ih.2 _ _ rfl
      refine ⟨?_, nofun⟩
      rw [← ih.1, List.map_append, List.map_singleton, hregion]
      simp

/-- The last report is that of the level which was settled last. -/
theorem settled (h : Course x start ahead v none) (hreports : v.reports ≠ []) :
    ∃ level before current, Course x start ahead before (some (level, current)) ∧
      v = { before with
        reports := before.reports ++ [current]
        pending := before.reports.length :: before.pending } := by
  cases h with
  | start => exact absurd rfl hreports
  | settle hcourse _ => exact ⟨_, _, _, hcourse, rfl⟩

/-- In the end there is one report for each level. -/
theorem regions_eq (h : Course x start [] v none) :
    v.reports.map LevelReport.region = x.levels start := by
  simpa using h.regions.1

end Course

namespace Course

variable {start : Annotated} {ahead : List RegionId} {v : Visit} {current : LevelReport}
  {cur : Option (RegionId × LevelReport)} {spec : TargetSpec} {registry : Registry} {d : Design}

/-- No two reports are about one level, and none is about the level that is searched or about one
    still to come. -/
theorem nodup_regions (h : Course x start ahead v cur) (hd : start.design.preorder.Nodup) :
    (v.reports.map LevelReport.region).Nodup ∧
      ∀ r ∈ v.reports, r.region ∉ cur.toList.map Prod.fst ∧ r.region ∉ ahead := by
  have hnodup := h.regions.1 ▸ nodup_levels (x := x) hd
  obtain ⟨hleft, -, hahead⟩ := List.nodup_append'.mp hnodup
  obtain ⟨hreports, -, hcur⟩ := List.nodup_append'.mp hleft
  refine ⟨hreports, fun r hr => ⟨hcur (List.mem_map_of_mem hr), ?_⟩⟩
  exact hahead (List.mem_append_left _ (List.mem_map_of_mem hr))

/-- What is reported after a level was searched again: its new report, and the reports of other
    levels. -/
theorem mem_set_cases {reports : List LevelReport} {place : Nat} {earlier again r : LevelReport}
    (hnodup : (reports.map LevelReport.region).Nodup) (found : reports[place]? = some earlier)
    (hr : r ∈ reports.set place again) : r = again ∨ r ∈ reports ∧ r.region ≠ earlier.region := by
  obtain ⟨i, hi⟩ := List.getElem?_of_mem hr
  rw [List.getElem?_set] at hi
  by_cases hplace : place = i
  · subst hplace
    obtain ⟨hlt, -⟩ := List.getElem?_eq_some_iff.mp found
    rw [if_pos rfl, if_pos hlt] at hi
    exact .inl (Option.some.inj hi).symm
  · rw [if_neg hplace] at hi
    refine .inr ⟨List.mem_of_getElem? hi, fun hregion => hplace ?_⟩
    obtain ⟨hlt, -⟩ := List.getElem?_eq_some_iff.mp found
    have hlt : place < (reports.map LevelReport.region).length := by rwa [List.length_map]
    refine (List.getElem?_inj hlt hnodup).mp ?_
    rw [List.getElem?_map, List.getElem?_map, found, hi, Option.map_some, Option.map_some, hregion]

/-- **What the search of a level says of itself, and searches of other levels keep, all reports say
    in the end**, of the design as it then stands. -/
theorem lasting (h : Course (new spec registry) start ahead v cur)
    (hstart : start.Settled spec.estimator d) {P : Progress → LevelReport → Prop}
    (own : ∀ {progress next : Progress} {level : RegionId} {report : LevelReport},
      progress.Sound spec d →
      (new spec registry).searchLevel level progress = .ok (report, next) → P next report)
    (others : ∀ {progress next : Progress} {level : RegionId} {report : LevelReport},
      progress.Sound spec d →
      (new spec registry).searchLevel level progress = .ok (report, next) →
      ∀ r, r.region ≠ level → P progress r → P next r) :
    (∀ r ∈ v.reports, P v.progress r) ∧
      ∀ level current, cur = some (level, current) → P v.progress current := by
  have hd := hstart.complete.distinct
  -- an earlier level that is searched again
  have again : ∀ {v : Visit} {place : Nat} {earlier again : LevelReport} {progress : Progress},
      (v.reports.map LevelReport.region).Nodup → v.reports[place]? = some earlier →
      v.progress.Sound spec d →
      (new spec registry).searchLevel earlier.region v.progress = .ok (again, progress) →
      (∀ r ∈ v.reports, P v.progress r) → ∀ r ∈ v.reports.set place again, P progress r := by
    intro v place earlier again progress hnodup hfound hsound hs hreports r hr
    rcases mem_set_cases hnodup hfound hr with rfl | ⟨hr, hne⟩
    · exact own hsound hs
    · exact others hsound hs r hne (hreports r hr)
  induction h with
  | start => exact ⟨nofun, nofun⟩
  | search hcourse hs ih =>
      have hsound := (hcourse.sound hstart).1
      obtain ⟨-, hapart⟩ := hcourse.nodup_regions hd
      refine ⟨fun r hr => ?_, fun _ _ hcur => ?_⟩
      · exact others hsound hs r (fun heq => (hapart r hr).2 (heq ▸ List.mem_cons_self)) (ih.1 r hr)
      · obtain ⟨-, rfl⟩ := Prod.mk.inj (Option.some.inj hcur)
        exact own hsound hs
  | @giveUp level _ _ current earlier _ _ _ _ hcourse _ _ _ hfound hs _ ih =>
      have hsound := (hcourse.sound hstart).1
      obtain ⟨hnodup, hapart⟩ := hcourse.nodup_regions hd
      refine ⟨again hnodup hfound hsound hs ih.1, fun level' current' hcur => ?_⟩
      obtain ⟨rfl, rfl⟩ := Prod.mk.inj (Option.some.inj hcur)
      refine others hsound hs current (fun heq => ?_) (ih.2 _ _ rfl)
      rw [hcourse.regions.2 _ _ rfl] at heq
      exact (hapart earlier (List.mem_of_getElem? hfound)).1 (heq ▸ List.mem_singleton_self _)
  | @help level _ _ current earlier again' report _ _ _ _ hcourse _ _ _ hfound hs _ hn ih =>
      have hsound := (hcourse.sound hstart).1
      have hsound' := (hsound.searched hs).sound
      obtain ⟨hnodup, hapart⟩ := hcourse.nodup_regions hd
      refine ⟨fun r hr => ?_, fun _ _ hcur => ?_⟩
      · refine others hsound' hn r (fun heq => ?_) (again hnodup hfound hsound hs ih.1 r hr)
        have hmem : r.region ∈ (_ : List RegionId) := List.mem_map_of_mem hr
        rw [map_region_set hfound (region_of_searchLevel hs), heq] at hmem
        obtain ⟨q, hq, hregion⟩ := List.mem_map.mp hmem
        exact (hapart q hq).1 (hregion ▸ List.mem_singleton_self _)
      · obtain ⟨-, rfl⟩ := Prod.mk.inj (Option.some.inj hcur)
        exact own hsound' hn
  | settle _ _ ih =>
      refine ⟨fun r hr => ?_, nofun⟩
      rcases List.mem_append.mp hr with hr | hr
      · exact ih.1 r hr
      · obtain rfl := List.mem_singleton.mp hr
        exact ih.2 _ _ rfl

end Course

end Explorer

/-! ## 2. The points of a level -/

variable {spec : TargetSpec} {registry : Registry} {d : Design} {level : RegionId}
  {progress next : Progress} {report : LevelReport} {points own : List Point}
  {levels : List RegionId}

/-- The trials of a level leave points of that level. -/
theorem LevelRun.Reach.points_at {x : Explorer} {first run : LevelRun}
    (h : Reach x d level first run) :
    ∃ more, run.progress.points = first.progress.points ++ more ∧
      ∀ pt ∈ more, pt.level = level := by
  have one : ∀ {r : LevelRun} (c : Candidate),
      (∃ more, r.progress.points = first.progress.points ++ more ∧ ∀ pt ∈ more, pt.level = level) →
      ∃ more, r.progress.points ++ [c.point level] = first.progress.points ++ more ∧
        ∀ pt ∈ more, pt.level = level := by
    intro r c hr
    obtain ⟨more, hpoints, hlevel⟩ := hr
    refine ⟨more ++ [c.point level], by rw [hpoints, List.append_assoc], fun pt hpt => ?_⟩
    rcases List.mem_append.mp hpt with hpt | hpt
    · exact hlevel pt hpt
    · rw [List.mem_singleton.mp hpt]
      rfl
  induction h with
  | start => exact ⟨[], (List.append_nil _).symm, nofun⟩
  | trial _ _ hv ih =>
      cases Explorer.step_of_tryValue hv with
      | passed => exact ih
      | refused => exact ih
      | @kept _ _ _ _ c => exact one c ih
      | @takenBack _ _ _ _ _ c => exact one c ih

/-- **The search of a level** leaves points of that level, at least one. -/
theorem Progress.Sound.points_at (h : progress.Sound spec d)
    (hs : (Explorer.new spec registry).searchLevel level progress = .ok (report, next)) :
    ∃ own, next.points = progress.points ++ own ∧ own ≠ [] ∧ ∀ pt ∈ own, pt.level = level := by
  obtain ⟨_, run, -, hreach, -, rfl⟩ := h.reach_of_searchLevel hs
  obtain ⟨more, hpoints, hlevel⟩ := hreach.points_at
  refine ⟨_ :: more, hpoints.trans (List.append_assoc _ [_] more), nofun, fun pt hpt => ?_⟩
  rcases List.mem_cons.mp hpt with rfl | hpt
  · rfl
  · exact hlevel pt hpt

/-- **Points of searches of some levels**, one search after the other: each of them leaves points of
    its level, at least one. -/
def Logged : List RegionId → List Point → Prop
  | [], points => points = []
  | level :: levels, points => ∃ own later, points = own ++ later ∧ own ≠ [] ∧
    (∀ pt ∈ own, pt.level = level) ∧ Logged levels later

namespace Logged

/-- One more search. -/
theorem snoc (h : Logged levels points) (hown : own ≠ []) (hlevel : ∀ pt ∈ own, pt.level = level) :
    Logged (levels ++ [level]) (points ++ own) := by
  induction levels generalizing points with
  | nil =>
      obtain rfl : points = [] := h
      exact ⟨own, [], (List.append_nil own).symm, hown, hlevel, rfl⟩
  | cons first levels ih =>
      obtain ⟨before, later, rfl, hbefore, hfirst, hlater⟩ := h
      exact ⟨before, later ++ own, List.append_assoc _ _ _, hbefore, hfirst, ih hlater⟩

/-- The levels of the points are those that were searched. -/
theorem exists_at_iff (h : Logged levels points) :
    (∃ pt ∈ points, pt.level = level) ↔ level ∈ levels := by
  induction levels generalizing points with
  | nil =>
      obtain rfl : points = [] := h
      simp
  | cons first levels ih =>
      obtain ⟨before, later, rfl, hbefore, hfirst, hlater⟩ := h
      rw [List.mem_cons, ← ih hlater]
      constructor
      · intro hpt
        obtain ⟨pt, hpt, rfl⟩ := hpt
        rcases List.mem_append.mp hpt with hpt | hpt
        · exact .inl (hfirst pt hpt)
        · exact .inr ⟨pt, hpt, rfl⟩
      · intro hor
        rcases hor with rfl | ⟨pt, hpt, hlevel⟩
        · obtain ⟨pt, hpt⟩ := List.exists_mem_of_ne_nil before hbefore
          exact ⟨pt, List.mem_append_left _ hpt, hfirst pt hpt⟩
        · exact ⟨pt, List.mem_append_right _ hpt, hlevel⟩

/-- The points from the first one of a level on, where no earlier search was one of that level. -/
theorem dropWhile_eq {old : List Point} (h : Logged (level :: levels) points)
    (hold : ∀ pt ∈ old, pt.level ≠ level) :
    (old ++ points).dropWhile (fun pt => pt.level ≠ level) = points := by
  obtain ⟨before, later, rfl, hbefore, hlevel, -⟩ := h
  obtain ⟨first, rest, rfl⟩ := List.exists_cons_of_ne_nil hbefore
  have hfirst : first.level = level := hlevel first List.mem_cons_self
  rw [List.dropWhile_append_of_pos fun pt hpt => by simpa using hold pt hpt, List.cons_append,
    List.dropWhile_cons_of_neg (by simp [hfirst])]

end Logged

end DesignSpace
