/-
  Subject:   THE COURSE OF A SEARCH, step by step. What the loops of a search come to is said once:
             the trials that one level is made of, and the searches of levels that a whole search
             is made of.

  * `LevelRun.Step`: all that one trial can do;
  * `Explorer.Offers`, `LevelRun.Reach`: values that are offered at a level, and the runs that
    trials of them lead to;
  * `Progress.Sound.exists_reach`: **the search of a level is a row of trials**;
  * `Explorer.Course`: levels searched, searched again and settled;
  * `Explorer.course_of_explore`: **a search that reports anything has a course**;
  * `Explorer.Course.keeps`: what every search of a level keeps, a whole search keeps;
  * `Explorer.Course.reports`: what every report of a level says, all reports of a search say.
-/
import DesignSpace.Proofs.Parameter.Overwrite
import DesignSpace.Proofs.Search.Feasible

namespace DesignSpace

/-! ## 1. One trial -/

/-- **All that one trial can do**: pass a value over, because it is the current one or no trials are
    left; have it refused by the operator; keep it, because it makes the design better; or take it
    back. -/
inductive LevelRun.Step (x : Explorer) (level : RegionId) (o : Operator) (p : Parameter)
    (run : LevelRun) (current s : Setting) : LevelRun × Setting → Prop
  | passed (h : s = current ∨ x.spent run.tried = true) :
      Step x level o p run current s (run, current)
  | refused {err : ChangeError} {a : Annotated} (new : s ≠ current)
      (left : x.spent run.tried = false)
      (applied : o.apply run.progress.annotated p s = (.error err, a)) :
      Step x level o p run current s
        (⟨⟨a, run.progress.evaluations + 1, run.progress.points⟩, run.tried + 1, run.best⟩, current)
  | kept {change : Change} {a a' : Annotated} {root : Metrics} {c : Candidate} (new : s ≠ current)
      (left : x.spent run.tried = false)
      (applied : o.apply run.progress.annotated p s = (.ok change, a))
      (refreshed : x.upkeep.refresh a = (root, a'))
      (candidate : c = x.candidate level a' root (some ⟨o.name, p, s⟩))
      (better : c.improvesOn run.best = true) :
      Step x level o p run current s
        (⟨⟨a', run.progress.evaluations + 1, run.progress.points ++ [c.point level]⟩,
          run.tried + 1, c⟩, s)
  | takenBack {change : Change} {a a' back : Annotated} {root : Metrics} {c : Candidate}
      (new : s ≠ current) (left : x.spent run.tried = false)
      (applied : o.apply run.progress.annotated p s = (.ok change, a))
      (refreshed : x.upkeep.refresh a = (root, a'))
      (candidate : c = x.candidate level a' root (some ⟨o.name, p, s⟩))
      (notBetter : c.improvesOn run.best = false)
      (reverted : x.upkeep.revert run.progress.annotated a' change = .ok back) :
      Step x level o p run current s
        (⟨⟨back, run.progress.evaluations + 1, run.progress.points ++ [c.point level]⟩,
          run.tried + 1, run.best⟩, current)

/-- A trial that gives a result is such a step. -/
theorem Explorer.step_of_tryValue {x : Explorer} {level : RegionId} {o : Operator} {p : Parameter}
    {run : LevelRun} {current s : Setting} {next : LevelRun × Setting}
    (h : x.tryValue level o p (run, current) s = .ok next) :
    LevelRun.Step x level o p run current s next := by
  rw [tryValue] at h
  by_cases hpass : (s = current || x.spent run.tried) = true
  · rw [if_pos hpass] at h
    obtain rfl := Except.ok.inj h
    exact .passed (by simpa using hpass)
  rw [if_neg hpass] at h
  obtain ⟨hnew, hleft⟩ : s ≠ current ∧ x.spent run.tried = false := by simpa using hpass
  rcases happly : o.apply run.progress.annotated p s with ⟨err | change, a⟩
  · simp only [happly] at h
    obtain rfl := Except.ok.inj h
    exact .refused hnew hleft happly
  rcases hrefresh : x.upkeep.refresh a with ⟨root, a'⟩
  simp only [happly, hrefresh] at h
  by_cases hbetter :
      (x.candidate level a' root (some ⟨o.name, p, s⟩)).improvesOn run.best = true
  · rw [if_pos hbetter] at h
    obtain rfl := Except.ok.inj h
    exact .kept hnew hleft happly hrefresh rfl hbetter
  · rw [if_neg hbetter] at h
    obtain ⟨back, hback, h⟩ := Attempt.bind_eq_ok_iff.mp h
    obtain rfl := Except.ok.inj h
    exact .takenBack hnew hleft happly hrefresh rfl (Bool.eq_false_iff.mpr hbetter)
      (Attempt.mapError_eq_ok_iff.mp hback)

/-! ## 2. The trials of a level -/

/-- In two designs a parameter can be set to the same values, and it has a value in the second. -/
structure Design.SameValues (p : Parameter) (c c' : Design) : Prop where
  readable : ∃ s, c'.setting p = .ok s
  admits : ∀ s, c.Admits p s ↔ c'.Admits p s

/-- **A value that is offered** to the design `c` at a level: an operator of the search has the
    parameter there, the value was in the domain of the parameter when its turn came, and since then
    the parameter has been one that can be set to the same values. -/
structure Explorer.Offers (x : Explorer) (d : Design) (level : RegionId) (o : Operator)
    (p : Parameter) (s : Setting) (c : Design) : Prop where
  operator : o ∈ x.operators
  target : ∃ a : Annotated, a.Settled x.spec.estimator d ∧ p ∈ o.targets a level
  value : ∃ a : Annotated, a.Settled x.spec.estimator d ∧ s ∈ o.domain a p ∧
    a.design.SameValues p c

/-- **The runs of a level** that trials of offered values lead to from a first one. -/
inductive LevelRun.Reach (x : Explorer) (d : Design) (level : RegionId) (first : LevelRun) :
    LevelRun → Prop
  | start : Reach x d level first first
  | trial {run : LevelRun} {o : Operator} {p : Parameter} {current s : Setting}
      {next : LevelRun × Setting} (h : Reach x d level first run)
      (offered : x.Offers d level o p s run.progress.annotated.design)
      (tried : x.tryValue level o p (run, current) s = .ok next) : Reach x d level first next.1

section Level

variable {spec : TargetSpec} {registry : Registry} {d c c' : Design} {level : RegionId}
  {old : List Point} {start : Point} {run first : LevelRun} {o : Operator} {p : Parameter}
  {current s : Setting} {progress next : Progress} {report : LevelReport}

theorem Design.SameValues.refl (h : c.setting p = .ok s) : c.SameValues p c :=
  ⟨⟨s, h⟩, fun _ => .rfl⟩

theorem Design.SameValues.ofAlike (h : d.SameValues p c) (hc : c.Alike c') :
    d.SameValues p c' := by
  obtain ⟨s, hs⟩ := h.readable
  exact ⟨⟨s, (hc.setting_eq p).trans hs⟩, fun s => (h.admits s).trans hc.admits_iff.symm⟩

theorem Design.SameValues.write (h : d.SameValues p c) (hw : c.write p s = .ok c') :
    d.SameValues p c' := by
  obtain ⟨_, hprevious⟩ := h.readable
  exact ⟨⟨s, setting_write hprevious hw⟩, fun s =>
    (h.admits s).trans (admits_write_iff hprevious hw).symm⟩

/-- A trial of one of its values leaves a parameter with the same values. -/
theorem LevelRun.Trial.sameValues {next : LevelRun × Setting}
    (ht : run.Trial spec registry d level o p current s next)
    (h : c.SameValues p run.progress.annotated.design) :
    c.SameValues p next.1.progress.annotated.design := by
  cases ht with
  | passed => exact h
  | refused _ halike => exact h.ofAlike halike
  | tried _ hw _ _ halike =>
      unfold Explorer.outcome
      dsimp only
      split
      · exact h.write hw
      · exact h.ofAlike halike

namespace LevelRun.Sound

/-- A trial with a result is one of those that leave a level sound. -/
theorem trial_of_tryValue (h : run.Sound spec d old start) {next : LevelRun × Setting}
    (hv : (Explorer.new spec registry).tryValue level o p (run, current) s = .ok next) :
    run.Trial spec registry d level o p current s next := by
  obtain ⟨next', hnew, -, ht⟩ :=
    @exists_trial spec registry d run level o p h.progress.settled current s
  obtain rfl := Except.ok.inj (hnew.symm.trans hv)
  exact ht

theorem ofReach (h : first.Sound spec d old start)
    (hreach : Reach (Explorer.new spec registry) d level first run) :
    run.Sound spec d old start := by
  induction hreach with
  | start => exact h
  | trial _ _ hv ih => exact ih.ofTrial (ih.trial_of_tryValue hv)

/-- All values of a parameter that an operator has at the level. -/
theorem reach_tryParameter (h : run.Sound spec d old start)
    (hreach : Reach (Explorer.new spec registry) d level first run)
    (ho : o ∈ (Explorer.new spec registry).operators)
    (htarget : ∃ a : Annotated, a.Settled spec.estimator d ∧ p ∈ o.targets a level) :
    ∃ next, (Explorer.new spec registry).tryParameter level o run p = .ok next ∧
      next.Sound spec d old start ∧ Reach (Explorer.new spec registry) d level first next := by
  cases hs : run.progress.annotated.design.setting p with
  | error err => exact ⟨run, Explorer.tryParameter_of_error hs, h, hreach⟩
  | ok current =>
      obtain ⟨next, hnew, hsound, hnext, -⟩ := Attempt.foldlM_total
        (P := fun next : LevelRun × Setting => next.1.Sound spec d old start ∧
          Reach (Explorer.new spec registry) d level first next.1 ∧
            run.progress.annotated.design.SameValues p next.1.progress.annotated.design)
        (f := (Explorer.new spec registry).tryValue level o p) (b := (run, current))
        (fun next s (hmem : s ∈ o.domain run.progress.annotated p) hp => by
          obtain ⟨hsound, hnext, hsame⟩ := hp
          obtain ⟨next', hnew, -, ht⟩ :=
            @exists_trial spec registry d next.1 level o p hsound.progress.settled next.2 s
          exact ⟨next', hnew, hsound.ofTrial ht,
            .trial hnext ⟨ho, htarget, ⟨_, h.progress.settled, hmem, hsame⟩⟩ hnew,
            ht.sameValues hsame⟩)
        ⟨h, hreach, .refl hs⟩
      exact ⟨next.1, Explorer.tryParameter_of_ok hs hnew, hsound, hnext⟩

/-- All parameters of an operator. -/
theorem reach_tryOperator (h : run.Sound spec d old start)
    (hreach : Reach (Explorer.new spec registry) d level first run)
    (ho : o ∈ (Explorer.new spec registry).operators) :
    ∃ next, (Explorer.new spec registry).tryOperator level run o = .ok next ∧
      next.Sound spec d old start ∧ Reach (Explorer.new spec registry) d level first next :=
  Attempt.foldlM_total (fun _ _ hp hnext =>
    hnext.1.reach_tryParameter hnext.2 ho ⟨_, h.progress.settled, hp⟩) ⟨h, hreach⟩

end LevelRun.Sound

/-- **The search of a level is a row of trials**, from the run that it starts with to the one that
    it reports. -/
theorem Progress.Sound.exists_reach (h : progress.Sound spec d) (level : RegionId) :
    ∃ start run, run.Sound spec d progress.points start ∧
      LevelRun.Reach (Explorer.new spec registry) d level
        ((Explorer.new spec registry).startLevel level progress) run ∧
      (Explorer.new spec registry).searchLevel level progress =
        .ok ((Explorer.new spec registry).reportLevel level run, run.progress) := by
  obtain ⟨start, -, -, hsound⟩ := @Progress.Sound.startLevel spec registry d progress h level
  obtain ⟨run, hrun, hsound, hreach⟩ := Attempt.foldlM_total
    (P := fun run : LevelRun => run.Sound spec d progress.points start ∧
      LevelRun.Reach (Explorer.new spec registry) d level
        ((Explorer.new spec registry).startLevel level progress) run)
    (fun run o ho hrun => hrun.1.reach_tryOperator hrun.2 ho) ⟨hsound, .start⟩
  exact ⟨start, run, hsound, hreach, Attempt.bind_eq_ok_iff.mpr ⟨run, hrun, rfl⟩⟩

/-- The same of a search that is known to have a result. -/
theorem Progress.Sound.reach_of_searchLevel (h : progress.Sound spec d)
    (hs : (Explorer.new spec registry).searchLevel level progress = .ok (report, next)) :
    ∃ start run, run.Sound spec d progress.points start ∧
      LevelRun.Reach (Explorer.new spec registry) d level
        ((Explorer.new spec registry).startLevel level progress) run ∧
      report = (Explorer.new spec registry).reportLevel level run ∧ next = run.progress := by
  obtain ⟨start, run, hsound, hreach, hrun⟩ :=
    @Progress.Sound.exists_reach spec registry d progress h level
  obtain ⟨hreport, hnext⟩ := Prod.mk.inj (Except.ok.inj (hs.symm.trans hrun))
  exact ⟨start, run, hsound, hreach, hreport, hnext⟩

theorem Progress.Sound.searched (h : progress.Sound spec d)
    (hs : (Explorer.new spec registry).searchLevel level progress = .ok (report, next)) :
    Searched spec d progress next report := by
  obtain ⟨report', next', hnew, -, hsearched⟩ :=
    @Progress.Sound.searchLevel spec registry d progress h level
  obtain ⟨rfl, rfl⟩ := Prod.mk.inj (Except.ok.inj (hs.symm.trans hnew))
  exact hsearched

end Level

/-! ## 3. The levels of a search -/

namespace Explorer

/-- **The course of a search**, where `ahead` are the levels still to come, and `current` is a level
    that has been searched but is not settled yet, with its report so far: a level is searched; an
    earlier one is searched again for it, and is given up or helps; the level is settled. -/
inductive Course (x : Explorer) (start : Annotated) :
    (ahead : List RegionId) → Visit → (current : Option (RegionId × LevelReport)) → Prop
  | start : Course x start (x.levels start) { progress := ⟨start, 0, []⟩ } none
  | search {level : RegionId} {ahead : List RegionId} {v : Visit} {report : LevelReport}
      {progress : Progress} (h : Course x start (level :: ahead) v none)
      (searched : x.searchLevel level v.progress = .ok (report, progress)) :
      Course x start ahead { v with progress } (some (level, report))
  | giveUp {level : RegionId} {ahead : List RegionId} {v : Visit}
      {current earlier again : LevelReport} {place : Nat} {pending : List Nat} {progress : Progress}
      (h : Course x start ahead v (some (level, current))) (misfit : ¬ current.feasible = true)
      (left : v.backtracks < x.spec.options.maxBacktracks)
      (pops : v.pending = place :: pending) (found : v.reports[place]? = some earlier)
      (searched : x.searchLevel earlier.region v.progress = .ok (again, progress))
      (vain : ¬ again.feasible = true) :
      Course x start ahead ⟨progress, v.backtracks + 1, v.reports.set place again, pending⟩
        (some (level, current))
  | help {level : RegionId} {ahead : List RegionId} {v : Visit}
      {current earlier again report : LevelReport} {place : Nat} {pending : List Nat}
      {progress next : Progress}
      (h : Course x start ahead v (some (level, current))) (misfit : ¬ current.feasible = true)
      (left : v.backtracks < x.spec.options.maxBacktracks)
      (pops : v.pending = place :: pending) (found : v.reports[place]? = some earlier)
      (searched : x.searchLevel earlier.region v.progress = .ok (again, progress))
      (helps : again.feasible = true)
      (searchedAgain : x.searchLevel level progress = .ok (report, next)) :
      Course x start ahead ⟨next, v.backtracks + 1, v.reports.set place again, place :: pending⟩
        (some (level, report))
  | settle {level : RegionId} {ahead : List RegionId} {v : Visit} {current : LevelReport}
      (h : Course x start ahead v (some (level, current)))
      (ended : x.backtrack level (x.spec.options.maxBacktracks - v.backtracks) v current =
        .ok (v, current)) :
      Course x start ahead
        { v with reports := v.reports ++ [current], pending := v.reports.length :: v.pending } none

section Course

variable {x : Explorer} {start final : Annotated} {ahead : List RegionId} {level : RegionId}
  {v v' : Visit} {current current' : LevelReport}

/-- **All that going back can do**: leave it, or search an earlier level again and, where that
    helps, the level itself. -/
theorem backtrack_cases {fuel : Nat}
    (h : x.backtrack level (fuel + 1) v current = .ok (v', current')) :
    (v' = v ∧ current' = current) ∨
    ∃ place pending earlier again progress, ¬ current.feasible = true ∧
      v.pending = place :: pending ∧ v.reports[place]? = some earlier ∧
      x.searchLevel earlier.region v.progress = .ok (again, progress) ∧
      (again.feasible = true →
        ∃ report next, x.searchLevel level progress = .ok (report, next)) := by
  have hleave : (.ok (v, current) : Except Halt (Visit × LevelReport)) = .ok (v', current') →
      v' = v ∧ current' = current := fun h =>
    (Prod.mk.inj (Except.ok.inj h)).imp Eq.symm Eq.symm
  rw [Explorer.backtrack] at h
  by_cases hc : current.feasible = true
  · rw [if_pos hc] at h
    exact .inl (hleave h)
  rw [if_neg hc] at h
  cases hpending : v.pending with
  | nil =>
      simp only [hpending] at h
      exact .inl (hleave h)
  | cons place pending =>
      cases hplace : v.reports[place]? with
      | none =>
          simp only [hpending, hplace] at h
          exact .inl (hleave h)
      | some earlier =>
          simp only [hpending, hplace] at h
          obtain ⟨⟨again, progress⟩, hs, h⟩ := Attempt.bind_eq_ok_iff.mp h
          refine .inr ⟨place, pending, earlier, again, progress, hc, rfl, hplace, hs, fun ha => ?_⟩
          obtain ⟨⟨report, next⟩, hn, -⟩ := Attempt.bind_eq_ok_iff.mp ((if_pos ha).symm.trans h)
          exact ⟨report, next, hn⟩

/-- A level with all help from earlier ones, until no more is to be had. -/
theorem Course.backtrack {fuel : Nat} (h : Course x start ahead v (some (level, current)))
    (hfuel : fuel = x.spec.options.maxBacktracks - v.backtracks)
    (hb : x.backtrack level fuel v current = .ok (v', current')) :
    Course x start ahead v' (some (level, current')) ∧
      x.backtrack level (x.spec.options.maxBacktracks - v'.backtracks) v' current' =
        .ok (v', current') := by
  induction fuel generalizing v current with
  | zero =>
      obtain ⟨rfl, rfl⟩ := Prod.mk.inj (Except.ok.inj hb)
      exact ⟨h, hfuel ▸ hb⟩
  | succ fuel ih =>
      obtain ⟨rfl, rfl⟩ | ⟨place, pending, earlier, again, progress, hc, hpending, hplace, hs,
        hhelps⟩ := backtrack_cases hb
      · exact ⟨h, hfuel ▸ hb⟩
      have hleft : v.backtracks < x.spec.options.maxBacktracks := by omega
      have hfuel' : fuel = x.spec.options.maxBacktracks - (v.backtracks + 1) := by omega
      by_cases ha : again.feasible = true
      · obtain ⟨report, next, hn⟩ := hhelps ha
        rw [backtrack_of_feasible hc hpending hplace hs ha hn] at hb
        exact ih (h.help hc hleft hpending hplace hs ha hn) hfuel' hb
      · rw [backtrack_of_infeasible hc hpending hplace hs ha] at hb
        exact ih (h.giveUp hc hleft hpending hplace hs ha) hfuel' hb

/-- One more level. -/
theorem Course.visitLevel (h : Course x start (level :: ahead) v none)
    (hv : x.visitLevel v level = .ok v') : Course x start ahead v' none := by
  obtain ⟨⟨report, progress⟩, hs, hv⟩ := Attempt.bind_eq_ok_iff.mp hv
  obtain ⟨⟨last, current⟩, hb, hv⟩ := Attempt.bind_eq_ok_iff.mp hv
  obtain rfl := Except.ok.inj hv
  obtain ⟨hcourse, hended⟩ := (h.search hs).backtrack rfl hb
  exact hcourse.settle hended

/-- All levels in turn. -/
theorem Course.visitLevels {levels : List RegionId} (h : Course x start levels v none)
    (hv : levels.foldlM x.visitLevel v = .ok v') : Course x start [] v' none := by
  induction levels generalizing v with
  | nil =>
      obtain rfl := Except.ok.inj hv
      exact h
  | cons level levels ih =>
      rw [List.foldlM_cons] at hv
      obtain ⟨next, hnext, hv⟩ := Attempt.bind_eq_ok_iff.mp hv
      exact ih (h.visitLevel hnext) hv

/-- **A search that reports anything has a course**: from the estimates of the design it goes
    through all levels, and the report tells of the design estimated in the end. -/
theorem exists_course {a : Annotated} {report : SearchReport}
    (h : x.explore a = .ok (report, final)) :
    ∃ summary start v summary', x.spec.estimator.run a = .ok (summary, start) ∧
      Course x start [] v none ∧
      x.spec.estimator.run v.progress.annotated = .ok (summary', final) ∧
      report = x.finalReport v summary' final := by
  obtain ⟨houtcome, rfl⟩ := explore_eq_ok_iff.mp h
  obtain ⟨summary, start, v, summary', final, hstart, hv, hfinal, hreport, hsearch⟩ :=
    exists_visit_of_search houtcome
  rw [hsearch]
  exact ⟨summary, start, v, summary', hstart, Course.start.visitLevels hv, hfinal, hreport⟩

end Course

/-! ## 4. What a search keeps -/

namespace Course

variable {spec : TargetSpec} {registry : Registry} {d : Design} {start : Annotated}
  {ahead : List RegionId} {v : Visit} {cur : Option (RegionId × LevelReport)}

/-- A search leaves every level sound, and a level that is not settled yet fits exactly if its
    report says so. -/
theorem sound (h : Course (new spec registry) start ahead v cur)
    (hstart : start.Settled spec.estimator d) :
    v.progress.Sound spec d ∧ ∀ level current, cur = some (level, current) →
      current.feasible =
        spec.target.fits (spec.estimator.rootMetrics v.progress.annotated.design) := by
  induction h with
  | start => exact ⟨⟨hstart, fun _ hpt => absurd hpt List.not_mem_nil⟩, nofun⟩
  | search _ hs ih =>
      have hsearched := ih.1.searched hs
      refine ⟨hsearched.sound, fun _ _ hcur => ?_⟩
      obtain ⟨-, rfl⟩ := Prod.mk.inj (Option.some.inj hcur)
      exact hsearched.fits
  | giveUp _ hmisfit _ _ _ hs hvain ih =>
      have hsearched := ih.1.searched hs
      refine ⟨hsearched.sound, fun _ _ hcur => ?_⟩
      obtain ⟨-, rfl⟩ := Prod.mk.inj (Option.some.inj hcur)
      rw [← hsearched.fits, Bool.eq_false_iff.mpr hmisfit, Bool.eq_false_iff.mpr hvain]
  | help _ _ _ _ _ hs _ hn ih =>
      have hsearched := (ih.1.searched hs).sound.searched hn
      refine ⟨hsearched.sound, fun _ _ hcur => ?_⟩
      obtain ⟨-, rfl⟩ := Prod.mk.inj (Option.some.inj hcur)
      exact hsearched.fits
  | settle _ _ ih => exact ⟨ih.1, nofun⟩

/-- **What every search of a level keeps, a whole search keeps.** -/
theorem keeps (h : Course (new spec registry) start ahead v cur)
    (hstart : start.Settled spec.estimator d) {P : Progress → Prop} (hp : P ⟨start, 0, []⟩)
    (step : ∀ {progress next : Progress} {level : RegionId} {report : LevelReport},
      progress.Sound spec d →
      (new spec registry).searchLevel level progress = .ok (report, next) → P progress → P next) :
    P v.progress := by
  induction h with
  | start => exact hp
  | search hcourse hs ih => exact step (hcourse.sound hstart).1 hs ih
  | giveUp hcourse _ _ _ _ hs _ ih => exact step (hcourse.sound hstart).1 hs ih
  | help hcourse _ _ _ _ hs _ hn ih =>
      have hsound := (hcourse.sound hstart).1
      exact step (hsound.searched hs).sound hn (step hsound hs ih)
  | settle _ _ ih => exact ih

/-- **What every report of a level says, all reports of a search say.** -/
theorem reports (h : Course (new spec registry) start ahead v cur)
    (hstart : start.Settled spec.estimator d) {Q : LevelReport → Prop}
    (step : ∀ {progress next : Progress} {level : RegionId} {report : LevelReport},
      progress.Sound spec d →
      (new spec registry).searchLevel level progress = .ok (report, next) → Q report) :
    (∀ r ∈ v.reports, Q r) ∧ ∀ level current, cur = some (level, current) → Q current := by
  -- a level that is searched again has a new report
  have again : ∀ {reports : List LevelReport} {place : Nat} {report : LevelReport},
      (∀ r ∈ reports, Q r) → Q report → ∀ r ∈ reports.set place report, Q r := by
    intro reports place report hreports hreport r hr
    rcases List.mem_or_eq_of_mem_set hr with hr | rfl
    · exact hreports r hr
    · exact hreport
  induction h with
  | start => exact ⟨nofun, nofun⟩
  | search hcourse hs ih =>
      refine ⟨ih.1, fun _ _ hcur => ?_⟩
      obtain ⟨-, rfl⟩ := Prod.mk.inj (Option.some.inj hcur)
      exact step (hcourse.sound hstart).1 hs
  | giveUp hcourse _ _ _ _ hs _ ih =>
      exact ⟨again ih.1 (step (hcourse.sound hstart).1 hs), ih.2⟩
  | help hcourse _ _ _ _ hs _ hn ih =>
      have hsound := (hcourse.sound hstart).1
      refine ⟨again ih.1 (step hsound hs), fun _ _ hcur => ?_⟩
      obtain ⟨-, rfl⟩ := Prod.mk.inj (Option.some.inj hcur)
      exact step (hsound.searched hs).sound hn
  | settle _ _ ih =>
      refine ⟨fun r hr => ?_, nofun⟩
      rcases List.mem_append.mp hr with hr | hr
      · exact ih.1 r hr
      · obtain rfl := List.mem_singleton.mp hr
        exact ih.2 _ _ rfl

end Course

/-- **A search of a design** starts from the design with all estimates, and the report tells of the
    design that it has come to. -/
theorem course_of_explore {spec : TargetSpec} {registry : Registry} {d : Design} {t : Table}
    {report : SearchReport} {final : Annotated} (hd : d.preorder.Nodup)
    (h : (new spec registry).explore ⟨d, t⟩ = .ok (report, final)) :
    ∃ start v summary, start.Settled spec.estimator d ∧ start.design = d ∧
      (new spec registry).Course start [] v none ∧ v.progress.Sound spec d ∧
      summary.metrics = spec.estimator.rootMetrics v.progress.annotated.design ∧
      final.design = v.progress.annotated.design ∧
      report = (new spec registry).finalReport v summary final := by
  obtain ⟨_, start, v, _, hstart, hcourse, hfinal, hreport⟩ := exists_course h
  obtain ⟨hcomplete, hdesign⟩ := Estimator.complete_run (a := ⟨d, t⟩) hd hstart
  have hsettled : start.Settled spec.estimator d := by
    obtain ⟨hcheck, -, -⟩ := Estimator.run_eq_ok_iff.mp hstart
    exact ⟨hcomplete, hdesign ▸ hcheck, congrArg Design.bare hdesign⟩
  have hsound := (hcourse.sound hsettled).1
  obtain ⟨hfull, hsame⟩ := Estimator.complete_run hsound.settled.complete.distinct hfinal
  obtain ⟨-, -, rfl⟩ := Estimator.run_eq_ok_iff.mp hfinal
  exact ⟨start, v, _, hsettled, hdesign, hcourse, hsound,
    (Estimator.metrics_summary hfull).trans (congrArg _ hsame), hsame, hreport⟩

end Explorer

end DesignSpace
