/-
  Subject:   THE ACCOUNT OF A SEARCH: how many configurations it tries, how many levels it searches,
             and how often it goes back.

  * `LevelRun.Account`: what one level comes to, trial by trial;
  * `LevelRun.Reach.account`: **one level** keeps to the budget of candidates;
  * `LevelRun.Reach.eq_first`: a budget of one is spent before the first trial;
  * `Explorer.Offers.isOk_apply`: **a standard operator refuses nothing that it offers**, whatever
    became of the other parameters in the meantime;
  * `Progress.Counts`: what the search of a level adds to the account;
  * `Explorer.Course.levelSearches_eq`: **going back helps once at most**, so that there is one
    search for each level and each time gone back, and one more where it helps;
  * `Explorer.account_explore`: the whole account.
-/
import DesignSpace.Proofs.Operator.Domain
import DesignSpace.Proofs.Operator.Targets
import DesignSpace.Proofs.Search.Course

namespace DesignSpace

variable {spec : TargetSpec} {registry : Registry} {d : Design} {t : Table} {level : RegionId}
  {before next : Progress} {run first : LevelRun} {report : LevelReport}

/-- How many searches of a level there were: each of them starts with a point without a move. -/
def levelSearches (points : List Point) : Nat := points.countP fun pt => pt.move.isNone

/-! ## 1. One level -/

/-- **The account of a level**, where `before` is the progress that it starts from: each trial
    counts, each of them leaves one point at most, and those points have moves. -/
structure LevelRun.Account (spec : TargetSpec) (before : Progress) (run : LevelRun) : Prop where
  evaluations : run.progress.evaluations = before.evaluations + run.tried
  budget : ∀ b, spec.options.candidateBudget = some b → run.tried ≤ b
  points : ∃ start rest, run.progress.points = before.points ++ start :: rest ∧
    start.move = none ∧ (∀ pt ∈ rest, pt.move.isSome = true) ∧ rest.length + 1 ≤ run.tried

/-- A budget that a target may have is not zero. -/
theorem TargetSpec.budget_ne_zero (h : spec.check = .ok ()) {b : Nat}
    (hb : spec.options.candidateBudget = some b) : b ≠ 0 := by
  obtain ⟨-, -, hdemand⟩ := Attempt.bind_eq_ok_iff.mp h
  intro hzero
  have hne := demand_eq_ok_iff.mp hdemand
  simp [hb, hzero] at hne

/-- Where trials are left, the budget is not reached. -/
theorem Explorer.lt_of_not_spent {x : Explorer} {tried b : Nat} (h : x.spent tried = false)
    (hb : x.spec.options.candidateBudget = some b) : tried < b := by
  unfold spent at h
  rw [hb] at h
  simpa using h

namespace LevelRun

theorem Account.start (hs : spec.check = .ok ()) (level : RegionId) (before : Progress) :
    ((Explorer.new spec registry).startLevel level before).Account spec before where
  evaluations := rfl
  budget _ hb := Nat.one_le_iff_ne_zero.mpr (TargetSpec.budget_ne_zero hs hb)
  points := ⟨_, [], rfl, rfl, nofun, Nat.le_refl 1⟩

/-- One trial, with at most one more point. -/
theorem Account.trial (h : run.Account spec before)
    (hleft : (Explorer.new spec registry).spent run.tried = false) (more : List Point)
    (hmove : ∀ pt ∈ more, pt.move.isSome = true) (hmore : more.length ≤ 1) (a : Annotated)
    (best : Candidate) :
    LevelRun.Account spec before ⟨⟨a, run.progress.evaluations + 1, run.progress.points ++ more⟩,
      run.tried + 1, best⟩ where
  evaluations := by rw [h.evaluations, Nat.add_assoc]
  budget _ hb := Explorer.lt_of_not_spent hleft hb
  points := by
    obtain ⟨start, rest, hpoints, hstart, hmoves, hlength⟩ := h.points
    refine ⟨start, rest ++ more, ?_, hstart, fun pt hpt => ?_, ?_⟩
    · rw [hpoints, List.append_assoc, List.cons_append]
    · rcases List.mem_append.mp hpt with hpt | hpt
      · exact hmoves pt hpt
      · exact hmove pt hpt
    · show (rest ++ more).length + 1 ≤ run.tried + 1
      rw [List.length_append]
      omega

/-- **One level** keeps its account. -/
theorem Reach.account (hs : spec.check = .ok ())
    (h : Reach (Explorer.new spec registry) d level
      ((Explorer.new spec registry).startLevel level before) run) :
    run.Account spec before := by
  induction h with
  | start => exact .start hs level before
  | @trial run o p current s _ _ _ hv ih =>
      have hmove : ∀ c : Candidate, c.move = some ⟨o.name, p, s⟩ →
          ∀ pt ∈ [c.point level], pt.move.isSome = true := by
        intro c hc pt hpt
        obtain rfl := List.mem_singleton.mp hpt
        exact Option.isSome_iff_exists.mpr ⟨_, hc⟩
      cases Explorer.step_of_tryValue hv with
      | passed => exact ih
      | refused _ hleft =>
          have hnext := ih.trial hleft [] nofun (Nat.zero_le 1)
          rw [List.append_nil] at hnext
          exact hnext _ _
      | kept _ hleft _ _ hc => exact ih.trial hleft _ (hmove _ (hc ▸ rfl)) (Nat.le_refl 1) _ _
      | takenBack _ hleft _ _ hc => exact ih.trial hleft _ (hmove _ (hc ▸ rfl)) (Nat.le_refl 1) _ _

/-- **A budget of one is spent before the first trial.** -/
theorem Reach.eq_first {x : Explorer} (hb : x.spec.options.candidateBudget = some 1)
    (h : Reach x d level (x.startLevel level before) run) : run = x.startLevel level before := by
  induction h with
  | start => rfl
  | trial _ _ hv ih =>
      have hspent : ∀ {r : LevelRun}, r = x.startLevel level before → x.spent r.tried = true := by
        intro r hr
        subst hr
        unfold Explorer.spent
        rw [hb]
        rfl
      cases Explorer.step_of_tryValue hv with
      | passed => exact ih
      | refused _ hleft => exact absurd (hspent ih) (Bool.eq_false_iff.mp hleft)
      | kept _ hleft => exact absurd (hspent ih) (Bool.eq_false_iff.mp hleft)
      | takenBack _ hleft => exact absurd (hspent ih) (Bool.eq_false_iff.mp hleft)

end LevelRun

/-! ## 2. The standard operators -/

/-- **A standard operator refuses nothing that it offers**: the parameter is still there, and it can
    be set to the same values as when they were listed. -/
theorem Explorer.Offers.isOk_apply {o : Operator} {p : Parameter} {s : Setting} {a : Annotated}
    (h : (Explorer.new spec .standard).Offers d level o p s a.design)
    (ha : a.Settled spec.estimator d) : (o.apply a p s).1.isOk = true := by
  have ho : o ∈ Registry.standard.operators := Registry.mem_of_mem_ordered h.operator
  obtain ⟨a', ha', htarget⟩ := h.target
  obtain ⟨listed, hlisted, hvalue, hsame⟩ := h.value
  have hexact : ∀ b : Annotated, b.Settled spec.estimator d → o.Exact b p ∧ o.refuses = false := by
    intro b hb
    rw [Registry.targets_of_bare ho (ha'.bare.trans hb.bare.symm)] at htarget
    exact Registry.exact_of_mem_standard hb.complete.distinct hb.rules ho htarget
  have hadmits : listed.design.Admits p s := ((hexact listed hlisted).1.mem_iff s).mp hvalue
  obtain ⟨hhere, hrefuses⟩ := hexact a ha
  exact (hhere.isOk_apply_iff ha.complete.distinct hrefuses s).mpr ((hsame.admits s).mp hadmits)

/-- With the standard operators each trial leaves a point. -/
theorem LevelRun.Reach.length_points {old : List Point} {start : Point}
    (h : Reach (Explorer.new spec .standard) d level first run)
    (hfirst : first.Sound spec d old start)
    (hlength : first.progress.points.length = first.progress.evaluations) :
    run.progress.points.length = run.progress.evaluations := by
  induction h with
  | start => exact hlength
  | trial hreach hoffers hv ih =>
      have hsettled := (hfirst.ofReach hreach).progress.settled
      cases Explorer.step_of_tryValue hv with
      | passed => exact ih
      | refused _ _ happlied =>
          have hok := hoffers.isOk_apply hsettled
          rw [happlied] at hok
          cases hok
      | kept => rw [List.length_append, ih]; rfl
      | takenBack => rw [List.length_append, ih]; rfl

/-! ## 3. What every search of a level keeps -/

/-- **What the search of a level adds** to the account, where `report` is its report. -/
structure Progress.Counts (spec : TargetSpec) (before next : Progress) (report : LevelReport) :
    Prop where
  evaluations : next.evaluations = before.evaluations + report.evaluations
  budget : ∀ b, spec.options.candidateBudget = some b → report.evaluations ≤ b
  searches : levelSearches next.points = levelSearches before.points + 1
  points : next.points.length ≤ before.points.length + report.evaluations

namespace Progress.Sound

theorem counts (h : before.Sound spec d) (hs : spec.check = .ok ())
    (hsearch : (Explorer.new spec registry).searchLevel level before = .ok (report, next)) :
    before.Counts spec next report := by
  obtain ⟨_, run, -, hreach, rfl, rfl⟩ := h.reach_of_searchLevel hsearch
  have haccount := hreach.account hs
  obtain ⟨start, rest, hpoints, hstart, hmoves, hlength⟩ := haccount.points
  have hrest : levelSearches rest = 0 := by
    refine List.countP_eq_zero.mpr fun pt hpt => ?_
    rw [Option.isNone_eq_false_iff.mpr (hmoves pt hpt)]
    exact Bool.false_ne_true
  refine ⟨haccount.evaluations, haccount.budget, ?_, ?_⟩
  · rw [hpoints, levelSearches, List.countP_append, List.countP_cons, ← levelSearches,
      ← levelSearches, hrest, hstart]
    rfl
  · rw [hpoints, List.length_append, List.length_cons]
    exact Nat.add_le_add_left hlength _

/-- With a budget of one the design stays as it is. -/
theorem design_eq (h : before.Sound spec d) (hb : spec.options.candidateBudget = some 1)
    (hsearch : (Explorer.new spec registry).searchLevel level before = .ok (report, next)) :
    next.annotated.design = before.annotated.design := by
  obtain ⟨_, run, -, hreach, -, rfl⟩ := h.reach_of_searchLevel hsearch
  rw [hreach.eq_first hb]
  exact spec.estimator.design_refresh before.annotated

/-- With the standard operators there are as many points as configurations. -/
theorem length_points (h : before.Sound spec d)
    (hsearch : (Explorer.new spec .standard).searchLevel level before = .ok (report, next))
    (hlength : before.points.length = before.evaluations) :
    next.points.length = next.evaluations := by
  obtain ⟨start, -, -, hfirst⟩ := @Progress.Sound.startLevel spec .standard d before h level
  obtain ⟨_, run, -, hreach, -, rfl⟩ := h.reach_of_searchLevel hsearch
  refine hreach.length_points hfirst ?_
  show (before.points ++ [_]).length = before.evaluations + 1
  rw [List.length_append, hlength]
  rfl

end Progress.Sound

/-- A design that fits before the search of a level fits after it. -/
theorem Searched.fits_of_fits (h : Searched spec d before next report)
    (hfits : spec.target.fits (spec.estimator.rootMetrics before.annotated.design) = true) :
    spec.target.fits (spec.estimator.rootMetrics next.annotated.design) = true := by
  obtain ⟨start, rest, -, hstart, hreport⟩ := h.found
  exact h.fits.symm.trans (hreport.mpr ⟨start, List.mem_cons_self, hstart.trans hfits⟩)

/-! ## 4. The whole search -/

namespace Explorer

variable {start final : Annotated} {ahead : List RegionId} {v : Visit}
  {cur : Option (RegionId × LevelReport)}

theorem Course.backtracks_le (h : Course (new spec registry) start ahead v cur) :
    v.backtracks ≤ spec.options.maxBacktracks := by
  induction h with
  | start => exact Nat.zero_le _
  | search _ _ ih => exact ih
  | giveUp _ _ hleft => exact hleft
  | help _ _ hleft => exact hleft
  | settle _ _ ih => exact ih

/-- How many levels have been searched, the one that is not settled yet included. -/
def visited (v : Visit) (cur : Option (RegionId × LevelReport)) : Nat :=
  v.reports.length + cur.toList.length

@[simp]
theorem visited_none (v : Visit) : visited v none = v.reports.length := rfl

@[simp]
theorem visited_some (v : Visit) (x : RegionId × LevelReport) :
    visited v (some x) = v.reports.length + 1 := rfl

/-- **Going back helps once at most**: there is one search for each level and each time gone back,
    and one more only for a level that an earlier one has helped; then the design fits, and from
    then on it does. -/
theorem Course.levelSearches_eq (h : Course (new spec registry) start ahead v cur)
    (hstart : start.Settled spec.estimator d) (hs : spec.check = .ok ()) :
    levelSearches v.progress.points = visited v cur + v.backtracks ∨
    levelSearches v.progress.points = visited v cur + v.backtracks + 1 ∧
      spec.target.fits (spec.estimator.rootMetrics v.progress.annotated.design) = true := by
  induction h with
  | start => exact .inl rfl
  | search hcourse hsearch ih =>
      have hsound := (hcourse.sound hstart).1
      have hcount := (hsound.counts hs hsearch).searches
      refine ih.imp (fun h => ?_) fun h => ⟨?_, (hsound.searched hsearch).fits_of_fits h.2⟩
      · simp only [visited_none, visited_some] at h ⊢
        omega
      · simp only [visited_none, visited_some] at h ⊢
        omega
  | giveUp hcourse hmisfit _ _ _ hsearch _ ih =>
      -- the level does not fit, so no earlier one has helped it
      obtain ⟨hsound, hfits⟩ := hcourse.sound hstart
      have hbefore := ih.resolve_right fun h => hmisfit ((hfits _ _ rfl).trans h.2)
      have hcount := (hsound.counts hs hsearch).searches
      left
      simp only [visited_some, List.length_set] at hbefore ⊢
      omega
  | help hcourse hmisfit _ _ _ hsearch hhelps hagain ih =>
      obtain ⟨hsound, hfits⟩ := hcourse.sound hstart
      have hbefore := ih.resolve_right fun h => hmisfit ((hfits _ _ rfl).trans h.2)
      have hcount := (hsound.counts hs hsearch).searches
      have hsearched := hsound.searched hsearch
      have hcount' := (hsearched.sound.counts hs hagain).searches
      refine .inr ⟨?_, (hsearched.sound.searched hagain).fits_of_fits ?_⟩
      · simp only [visited_some, List.length_set] at hbefore ⊢
        omega
      · exact hsearched.fits.symm.trans hhelps
  | settle _ _ ih =>
      simp only [visited_none, visited_some, List.length_append, List.length_singleton] at ih ⊢
      exact ih

variable {l : Listing} {report : SearchReport}

/-- **The account of a search.** Take a search of the design of a listing, with any target and any
    operators. It goes back no more often than allowed. There is one search for each level and each
    time gone back, and at most one more. Each point tells of another configuration, and with the
    standard operators each configuration has a point. No level tries more configurations than the
    budget, nor does the search as a whole, for as many levels as it has searched; and with a budget
    of one it leaves the design as it is. -/
theorem account_explore (hd : l.design = .ok d)
    (h : (new spec registry).explore ⟨d, t⟩ = .ok (report, final)) :
    report.backtracks ≤ spec.options.maxBacktracks ∧
    report.levels.length + report.backtracks ≤ levelSearches report.points ∧
    levelSearches report.points ≤ report.levels.length + report.backtracks + 1 ∧
    report.points.length ≤ report.evaluations ∧
    (registry = .standard → report.points.length = report.evaluations) ∧
    ∀ b, spec.options.candidateBudget = some b →
      (∀ r ∈ report.levels, r.evaluations ≤ b) ∧
      report.evaluations ≤ b * levelSearches report.points ∧
      (b = 1 → final.design = d) := by
  obtain ⟨hs, -, -⟩ := start_of_explore h
  obtain ⟨start, v, summary, hstart, hdesign, hcourse, hsound, -, hfinal, rfl⟩ :=
    course_of_explore (Listing.nodup_of_design hd) h
  have hsearches : levelSearches v.progress.points = v.reports.length + v.backtracks ∨
      levelSearches v.progress.points = v.reports.length + v.backtracks + 1 :=
    (hcourse.levelSearches_eq hstart hs).imp_right And.left
  refine ⟨hcourse.backtracks_le, ?_, ?_, ?_, ?_, fun b hb => ⟨?_, ?_, ?_⟩⟩
  · show v.reports.length + v.backtracks ≤ levelSearches v.progress.points
    omega
  · show levelSearches v.progress.points ≤ v.reports.length + v.backtracks + 1
    omega
  · refine hcourse.keeps (P := fun p => p.points.length ≤ p.evaluations) hstart (Nat.le_refl 0) ?_
    intro before next level report hsound hsearch hle
    have hcounts := hsound.counts hs hsearch
    have hevaluations := hcounts.evaluations
    have hpoints := hcounts.points
    omega
  · intro hstandard
    subst hstandard
    exact hcourse.keeps (P := fun p => p.points.length = p.evaluations) hstart rfl
      fun hsound hsearch hlength => hsound.length_points hsearch hlength
  · exact (hcourse.reports hstart (Q := fun r => r.evaluations ≤ b)
      fun hsound hsearch => (hsound.counts hs hsearch).budget b hb).1
  · refine hcourse.keeps (P := fun p => p.evaluations ≤ b * levelSearches p.points) hstart
      (Nat.zero_le _) ?_
    intro before next level report hsound hsearch hle
    have hcounts := hsound.counts hs hsearch
    calc next.evaluations = before.evaluations + report.evaluations := hcounts.evaluations
      _ ≤ b * levelSearches before.points + b := Nat.add_le_add hle (hcounts.budget b hb)
      _ = b * levelSearches next.points := by rw [hcounts.searches, Nat.mul_succ]
  · intro hone
    subst hone
    rw [hfinal]
    exact hcourse.keeps (P := fun p => p.annotated.design = d) hstart hdesign
      fun hsound hsearch hsame => (hsound.design_eq hb hsearch).trans hsame

/-- A search with three configurations for each level. -/
theorem account_explore_smoothing :
    Smoothing.listing.design = .ok Smoothing.design ∧ ∃ report final,
      (new Smoothing.tight .standard).explore ⟨Smoothing.design, .empty⟩ = .ok (report, final) ∧
      report.levels.length + report.backtracks ≤ levelSearches report.points ∧
      report.points.length = report.evaluations ∧
      (∀ r ∈ report.levels, r.evaluations ≤ 3) ∧
      report.evaluations ≤ 3 * levelSearches report.points := by
  obtain ⟨report, final, hreport, -, -⟩ := Smoothing.explore_tight
  obtain ⟨-, hsearches, -, -, hpoints, hbudget⟩ :=
    account_explore Smoothing.design_listing hreport
  obtain ⟨hlevels, hevaluations, -⟩ := hbudget 3 rfl
  exact ⟨Smoothing.design_listing, report, final, hreport, hsearches, hpoints rfl, hlevels,
    hevaluations⟩

end Explorer

end DesignSpace
