/-
  Subject:   WHAT THE SEARCH OF A LEVEL KEEPS. Whatever is tried, given up or refused, the design as
             it stands has a complete table and is the best candidate, and each point tells of a
             design that was estimated as a whole.

  * `Annotated.Settled`, `LevelRun.Sound`: what holds between two trials;
  * `Point.TellsOf`: the design that a point was recorded for;
  * `LevelRun.Trial`: what one trial can come to;
  * `LevelRun.Sound.tryValue`: **one trial**, the same with both ways of upkeep;
  * `Progress.Sound.searchLevel`: **the search of a level**.
-/
import DesignSpace.Proofs.Design.Rules
import DesignSpace.Proofs.Search.Upkeep

namespace DesignSpace

/-! ## 1. Between two trials -/

/-- A design that keeps the rules, with a complete table, that differs from another one in
    directives and banks only. -/
structure Annotated.Settled (e : Estimator) (d : Design) (a : Annotated) : Prop where
  complete : a.Complete e
  rules : a.design.check = .ok ()
  bare : a.design.bare = d.bare

/-- **What a point tells of**: a design whose root, estimated with an empty table, has the metrics
    of the point, and in which the move of the point is made. -/
structure Point.TellsOf (spec : TargetSpec) (pt : Point) (d : Design) : Prop where
  latency : pt.latency = (spec.estimator.refresh ⟨d, .empty⟩).1.latency
  resources : pt.resources = (spec.estimator.refresh ⟨d, .empty⟩).1.resources
  feasible : pt.feasible = spec.target.fits (spec.estimator.refresh ⟨d, .empty⟩).1
  move : ∀ m, pt.move = some m → d.setting m.parameter = .ok m.setting

/-- All points tell of designs that keep the rules and differ in directives and banks only. -/
def Truthful (spec : TargetSpec) (d : Design) (points : List Point) : Prop :=
  ∀ pt ∈ points, ∃ c : Design, c.check = .ok () ∧ c.bare = d.bare ∧ pt.TellsOf spec c

/-- What holds of the progress of a search. -/
structure Progress.Sound (spec : TargetSpec) (d : Design) (progress : Progress) : Prop where
  settled : progress.annotated.Settled spec.estimator d
  points : Truthful spec d progress.points

/-- **What holds between two trials at a level**, where `old` are the points from before the level
    and `start` is the point of the configuration that it starts with: the best candidate is the
    design as it stands, and it fits if one of the points of the level does. -/
structure LevelRun.Sound (spec : TargetSpec) (d : Design) (old : List Point) (start : Point)
    (run : LevelRun) : Prop where
  progress : run.progress.Sound spec d
  root : run.best.root = spec.estimator.rootMetrics run.progress.annotated.design
  fits : run.best.feasible = spec.target.fits run.best.root
  found : ∃ rest, run.progress.points = old ++ start :: rest ∧
    (run.best.feasible = true ↔ ∃ pt ∈ start :: rest, pt.feasible = true)

namespace Annotated

variable {e : Estimator} {d : Design} {before a : Annotated} {p : Parameter} {s : Setting}
  {change : Change}

theorem Settled.ofAlike {c c' : Design} {t : Table} (h : Settled e d ⟨c, t⟩) (hc : c.Alike c') :
    Settled e d ⟨c', t⟩ where
  complete := h.complete.ofAlike hc
  rules := hc.check h.rules
  bare := hc.bare_eq.trans h.bare

/-- A parameter that is set, with the estimates made: settled again, and the value is the one
    set. -/
theorem Settled.trial (h : Settled e d before) (hset : before.set p s = (.ok change, a)) :
    a.UpToDate e ∧ (e.refresh a).2.Settled e d ∧ before.design.write p s = .ok a.design ∧
      a.design.setting p = .ok s := by
  have hup := h.complete.upToDate.set p s
  rw [hset] at hup
  obtain ⟨_, hset'⟩ | ⟨previous, c, hprevious, hw, hc, hset'⟩ | ⟨_, _, _, _, _, _, hset'⟩ :=
    before.set_cases h.complete.distinct p s
  · rw [hset] at hset'
    cases hset'
  · rw [hset] at hset'
    obtain ⟨-, rfl⟩ := Prod.mk.inj hset'
    refine ⟨hup, ⟨hup.complete_refresh, ?_, ?_⟩, hw, Design.setting_write hprevious hw⟩
    · rw [e.design_refresh]
      exact hc
    · rw [e.design_refresh]
      exact (Design.bare_write hw).trans h.bare
  · rw [hset] at hset'
    cases hset'

/-- A parameter that could not be set leaves a design that is alike. -/
theorem Settled.refused (h : Settled e d before) {err : ChangeError}
    (hset : before.set p s = (.error err, a)) :
    a.Settled e d ∧ before.design.Alike a.design := by
  obtain ⟨_, hset'⟩ | ⟨_, _, _, _, _, hset'⟩ | ⟨_, _, back, _, _, halike, hset'⟩ :=
    before.set_cases h.complete.distinct p s
  · rw [hset] at hset'
    obtain ⟨-, rfl⟩ := Prod.mk.inj hset'
    exact ⟨h, rfl, rfl, rfl, rfl⟩
  · rw [hset] at hset'
    cases hset'
  · rw [hset] at hset'
    obtain ⟨-, rfl⟩ := Prod.mk.inj hset'
    exact ⟨h.ofAlike halike, halike⟩

end Annotated

theorem Design.Alike.rootMetrics_eq {d d' : Design} (h : d.Alike d') (e : Estimator) :
    e.rootMetrics d' = e.rootMetrics d := by
  have hroot := h.estimate?_eq e d.root.id
  have hid : d.root.id = d'.root.id := h.root
  rw [e.estimate?_root d, hid, e.estimate?_root d'] at hroot
  exact congrArg Estimate.metrics (Option.some.inj hroot)

/-! ## 2. Candidates -/

namespace Candidate

variable {c best : Candidate}

/-- What takes the place of a candidate that fits does so too. -/
theorem feasible_of_improvesOn (h : c.improvesOn best = true) (hbest : best.feasible = true) :
    c.feasible = true := by
  cases hc : c.feasible with
  | true => rfl
  | false =>
      unfold improvesOn at h
      rw [hc, hbest] at h
      cases h

/-- What fits is given up only for a candidate that fits. -/
theorem feasible_of_not_improvesOn (h : c.improvesOn best = false) (hc : c.feasible = true) :
    best.feasible = true := by
  cases hb : best.feasible with
  | true => rfl
  | false =>
      unfold improvesOn at h
      rw [hc, hb] at h
      cases h

end Candidate

/-- An operator that changes a parameter at all does so as the design itself. -/
theorem Operator.apply_cases (o : Operator) (a : Annotated) (p : Parameter) (s : Setting) :
    (∃ err, o.apply a p s = (.error err, a)) ∨ o.apply a p s = a.set p s := by
  unfold apply
  by_cases hr : o.refuses
  · exact .inl ⟨_, if_pos hr⟩
  · rw [if_neg hr]
    by_cases hd : (o.domain a p).contains s
    · exact .inr (if_pos hd)
    · exact .inl ⟨_, if_neg hd⟩

/-! ## 3. One trial -/

namespace Explorer

variable {x : Explorer} {level : RegionId} {o : Operator} {p : Parameter} {run : LevelRun}
  {current s : Setting}

theorem tryValue_passed (h : (s = current || x.spent run.tried) = true) :
    x.tryValue level o p (run, current) s = .ok (run, current) := if_pos h

theorem tryValue_refused (h : ¬ (s = current || x.spent run.tried) = true) {err : ChangeError}
    {a : Annotated} (ha : o.apply run.progress.annotated p s = (.error err, a)) :
    x.tryValue level o p (run, current) s =
      .ok (⟨⟨a, run.progress.evaluations + 1, run.progress.points⟩, run.tried + 1, run.best⟩,
        current) := by
  rw [tryValue, if_neg h]
  simp only [ha]

/-- What becomes of a trial `a`, where `back` is the design with the trial taken back. -/
def outcome (x : Explorer) (level : RegionId) (o : Operator) (p : Parameter) (run : LevelRun)
    (current s : Setting) (root : Metrics) (a back : Annotated) : LevelRun × Setting :=
  let c := x.candidate level a root (some ⟨o.name, p, s⟩)
  let evaluations := run.progress.evaluations + 1
  let points := run.progress.points ++ [c.point level]
  if c.improvesOn run.best then (⟨⟨a, evaluations, points⟩, run.tried + 1, c⟩, s)
  else (⟨⟨back, evaluations, points⟩, run.tried + 1, run.best⟩, current)

theorem tryValue_tried (h : ¬ (s = current || x.spent run.tried) = true) {change : Change}
    {a a' back : Annotated} {root : Metrics}
    (ha : o.apply run.progress.annotated p s = (.ok change, a))
    (hr : x.upkeep.refresh a = (root, a'))
    (hb : x.upkeep.revert run.progress.annotated a' change = .ok back) :
    x.tryValue level o p (run, current) s =
      .ok (x.outcome level o p run current s root a' back) := by
  have hback : (x.upkeep.revert run.progress.annotated a' change).mapError (Halt.mk · a') =
      .ok back := Attempt.mapError_eq_ok_iff.mpr hb
  rw [tryValue, if_neg h, outcome]
  simp only [ha, hr, hback]
  by_cases hi : (x.candidate level a' root (some ⟨o.name, p, s⟩)).improvesOn run.best
  · rw [if_pos hi, if_pos hi]
  · rw [if_neg hi, if_neg hi]
    rfl

theorem tryParameter_of_error {err : ChangeError}
    (hs : run.progress.annotated.design.setting p = .error err) :
    x.tryParameter level o run p = .ok run := by
  unfold tryParameter
  simp only [hs]

theorem tryParameter_of_ok (hs : run.progress.annotated.design.setting p = .ok current)
    {next : LevelRun × Setting}
    (hnext : (o.domain run.progress.annotated p).foldlM (x.tryValue level o p)
      (run, current) = .ok next) : x.tryParameter level o run p = .ok next.1 := by
  unfold tryParameter
  simp only [hs]
  exact Attempt.bind_eq_ok_iff.mpr ⟨next, hnext, rfl⟩

end Explorer

section Trial

variable {spec : TargetSpec} {registry : Registry} {d : Design} {old : List Point} {start : Point}
  {run : LevelRun} {level : RegionId}

theorem Truthful.append {points : List Point} {pt : Point} (h : Truthful spec d points)
    {c : Design} (hc : c.check = .ok ()) (hbare : c.bare = d.bare) (ht : pt.TellsOf spec c) :
    Truthful spec d (points ++ [pt]) := by
  intro q hq
  rcases List.mem_append.mp hq with hq | hq
  · exact h q hq
  · obtain rfl := List.mem_singleton.mp hq
    exact ⟨c, hc, hbare, ht⟩

/-- The point of a design with a complete table tells of it. -/
theorem tellsOf_candidate {a : Annotated} (ha : a.Settled spec.estimator d)
    {move : Option Move}
    (hmove : ∀ m, move = some m → a.design.setting m.parameter = .ok m.setting) :
    (((Explorer.new spec registry).candidate level a
      (spec.estimator.rootMetrics a.design) move).point level).TellsOf spec a.design := by
  have hroot : (spec.estimator.refresh ⟨a.design, .empty⟩).1 =
      spec.estimator.rootMetrics a.design :=
    (Annotated.upToDate_empty spec.estimator ha.complete.distinct).fst_refresh
  refine ⟨?_, ?_, ?_, hmove⟩
  · rw [hroot]
    rfl
  · rw [hroot]
    rfl
  · rw [hroot]
    rfl

/-- One more point at a level: the level has a point that fits if it had one before or if this one
    does. -/
theorem found_append {points : List Point} {pt : Point} {before after : Bool}
    (hfound : ∃ rest, points = old ++ start :: rest ∧
      (before = true ↔ ∃ q ∈ start :: rest, q.feasible = true))
    (hafter : after = true ↔ before = true ∨ pt.feasible = true) :
    ∃ rest, points ++ [pt] = old ++ start :: rest ∧
      (after = true ↔ ∃ q ∈ start :: rest, q.feasible = true) := by
  obtain ⟨rest, rfl, hiff⟩ := hfound
  refine ⟨rest ++ [pt], by simp, ?_⟩
  rw [hafter, hiff]
  constructor
  · rintro (⟨q, hq, hf⟩ | hf)
    · exact ⟨q, List.mem_append_left [pt] hq, hf⟩
    · exact ⟨pt, List.mem_append_right (start :: rest) List.mem_cons_self, hf⟩
  · rintro ⟨q, hq, hf⟩
    have hq : q ∈ (start :: rest) ++ [pt] := hq
    rcases List.mem_append.mp hq with hq | hq
    · exact .inl ⟨q, hq, hf⟩
    · exact .inr (List.mem_singleton.mp hq ▸ hf)

/-- **What a trial can come to**: nothing, where the value is the current one or no trials are left;
    a value that is refused, which leaves a design that is alike; or a design with the value, which
    stays or is taken back. -/
inductive LevelRun.Trial (spec : TargetSpec) (registry : Registry) (d : Design) (level : RegionId)
    (o : Operator) (p : Parameter) (run : LevelRun) (current s : Setting) :
    LevelRun × Setting → Prop
  | passed : Trial spec registry d level o p run current s (run, current)
  | refused {a : Annotated} (settled : a.Settled spec.estimator d)
      (alike : run.progress.annotated.design.Alike a.design) :
      Trial spec registry d level o p run current s
        (⟨⟨a, run.progress.evaluations + 1, run.progress.points⟩, run.tried + 1, run.best⟩, current)
  | tried {a back : Annotated} (settled : a.Settled spec.estimator d)
      (written : run.progress.annotated.design.write p s = .ok a.design)
      (value : a.design.setting p = .ok s) (settledBack : back.Settled spec.estimator d)
      (alike : run.progress.annotated.design.Alike back.design) :
      Trial spec registry d level o p run current s
        ((Explorer.new spec registry).outcome level o p run current s
          (spec.estimator.rootMetrics a.design) a back)

variable {o : Operator} {p : Parameter} {current s : Setting}

/-- **One value tried** comes to the same with both ways of upkeep, and never stops the search. -/
theorem LevelRun.exists_trial (h : run.progress.annotated.Settled spec.estimator d)
    (current s : Setting) :
    ∃ next, (Explorer.new spec registry).tryValue level o p (run, current) s = .ok next ∧
      (Explorer.naive spec registry).tryValue level o p (run, current) s = .ok next ∧
        run.Trial spec registry d level o p current s next := by
  have hspent := Explorer.spent_congr (Explorer.spec_naive spec registry)
  by_cases hpass : (s = current || (Explorer.new spec registry).spent run.tried) = true
  · have hpass' : (s = current || (Explorer.naive spec registry).spent run.tried) = true := by
      rw [hspent]
      exact hpass
    exact ⟨_, Explorer.tryValue_passed hpass, Explorer.tryValue_passed hpass', .passed⟩
  have hpass' : ¬ (s = current || (Explorer.naive spec registry).spent run.tried) = true := by
    rw [hspent]
    exact hpass
  have hrefused : ∀ err a, o.apply run.progress.annotated p s = (.error err, a) →
      a.Settled spec.estimator d → run.progress.annotated.design.Alike a.design →
      ∃ next, (Explorer.new spec registry).tryValue level o p (run, current) s = .ok next ∧
        (Explorer.naive spec registry).tryValue level o p (run, current) s = .ok next ∧
          run.Trial spec registry d level o p current s next := fun err a happly ha halike =>
    ⟨_, Explorer.tryValue_refused hpass happly, Explorer.tryValue_refused hpass' happly,
      .refused ha halike⟩
  rcases o.apply_cases run.progress.annotated p s with ⟨err, happly⟩ | happly
  · exact hrefused err _ happly h ⟨rfl, rfl, rfl, rfl⟩
  rcases hset : run.progress.annotated.set p s with ⟨err | change, a⟩
  · obtain ⟨ha, halike⟩ := h.refused hset
    exact hrefused err a (happly.trans hset) ha halike
  -- the trial is estimated, and it can be taken back
  obtain ⟨hup, ha, hw, hs⟩ := h.trial hset
  obtain ⟨back, hnew, hnaive, hcomplete, halike⟩ :=
    Upkeep.revert_agree h.complete hset
  have hback : back.Settled spec.estimator d :=
    ⟨hcomplete, halike.check h.rules,
      halike.bare_eq.trans h.bare⟩
  have hdesign := spec.estimator.design_refresh a
  have hrefresh : spec.estimator.refresh a =
      (spec.estimator.rootMetrics (spec.estimator.refresh a).2.design,
        (spec.estimator.refresh a).2) := by
    rw [hdesign, ← hup.fst_refresh]
  have houtcome : (Explorer.naive spec registry).outcome =
      (Explorer.new spec registry).outcome := by
    unfold Explorer.outcome
    rw [Explorer.candidate_congr (Explorer.spec_naive spec registry)]
  refine ⟨_, Explorer.tryValue_tried hpass (happly.trans hset) hrefresh hnew, ?_,
    .tried ha (hdesign ▸ hw) (hdesign ▸ hs) hback halike⟩
  rw [Explorer.tryValue_tried hpass' (happly.trans hset) (hup.refresh_eq.symm.trans hrefresh)
    hnaive, houtcome]

namespace LevelRun.Sound

/-- A design that is alike takes the place of the one that stands. -/
theorem ofAlike (h : run.Sound spec d old start) {a : Annotated}
    (ha : a.Settled spec.estimator d) (halike : run.progress.annotated.design.Alike a.design)
    (evaluations tried : Nat) :
    LevelRun.Sound spec d old start
      ⟨⟨a, evaluations, run.progress.points⟩, tried, run.best⟩ where
  progress := ⟨ha, h.progress.points⟩
  root := h.root.trans (halike.rootMetrics_eq spec.estimator).symm
  fits := h.fits
  found := h.found

/-- **A trial**, whether it stays or is taken back. -/
theorem outcome (h : run.Sound spec d old start) {a back : Annotated}
    (ha : a.Settled spec.estimator d) (hs : a.design.setting p = .ok s)
    (hback : back.Settled spec.estimator d)
    (halike : run.progress.annotated.design.Alike back.design) :
    ((Explorer.new spec registry).outcome level o p run current s
      (spec.estimator.rootMetrics a.design) a back).1.Sound spec d old start := by
  have htells : (((Explorer.new spec registry).candidate level a
      (spec.estimator.rootMetrics a.design) (some ⟨o.name, p, s⟩)).point level).TellsOf
        spec a.design := by
    refine tellsOf_candidate ha fun m hm => ?_
    obtain rfl := Option.some.inj hm
    exact hs
  have hpoints := h.progress.points.append ha.rules ha.bare htells
  unfold Explorer.outcome
  dsimp only
  generalize hc : (Explorer.new spec registry).candidate level a
    (spec.estimator.rootMetrics a.design) (some ⟨o.name, p, s⟩) = c at hpoints ⊢
  by_cases hi : c.improvesOn run.best = true
  · rw [if_pos hi]
    refine ⟨⟨ha, hpoints⟩, by rw [← hc]; rfl, by rw [← hc]; rfl, found_append h.found ?_⟩
    exact ⟨.inr, fun hor => hor.elim (Candidate.feasible_of_improvesOn hi) id⟩
  · rw [if_neg hi]
    refine ⟨⟨hback, hpoints⟩, h.root.trans (halike.rootMetrics_eq spec.estimator).symm, h.fits,
      found_append h.found ?_⟩
    exact ⟨.inl, fun hor =>
      hor.elim id (Candidate.feasible_of_not_improvesOn (Bool.eq_false_iff.mpr hi))⟩

/-- A trial leaves the level sound. -/
theorem ofTrial (h : run.Sound spec d old start) {next : LevelRun × Setting}
    (ht : run.Trial spec registry d level o p current s next) : next.1.Sound spec d old start := by
  cases ht with
  | passed => exact h
  | refused ha halike => exact h.ofAlike ha halike _ _
  | tried ha _ hs hback halike => exact h.outcome ha hs hback halike

theorem tryValue (h : run.Sound spec d old start) (current s : Setting) :
    ∃ next, (Explorer.new spec registry).tryValue level o p (run, current) s = .ok next ∧
      (Explorer.naive spec registry).tryValue level o p (run, current) s = .ok next ∧
        next.1.Sound spec d old start := by
  obtain ⟨next, hnew, hnaive, ht⟩ := LevelRun.exists_trial h.progress.settled current s
  exact ⟨next, hnew, hnaive, h.ofTrial ht⟩

/-- **All values of a parameter.** -/
theorem tryParameter (h : run.Sound spec d old start) (p : Parameter) :
    ∃ next, (Explorer.new spec registry).tryParameter level o run p = .ok next ∧
      (Explorer.naive spec registry).tryParameter level o run p = .ok next ∧
        next.Sound spec d old start := by
  cases hs : run.progress.annotated.design.setting p with
  | error err =>
      exact ⟨run, Explorer.tryParameter_of_error hs, Explorer.tryParameter_of_error hs, h⟩
  | ok current =>
      have step : ∀ (next : LevelRun × Setting) (s : Setting), next.1.Sound spec d old start →
          ∃ next', (Explorer.new spec registry).tryValue level o p next s = .ok next' ∧
            (Explorer.naive spec registry).tryValue level o p next s = .ok next' ∧
              next'.1.Sound spec d old start := fun next s hnext => hnext.tryValue next.2 s
      obtain ⟨next, hnew, hnaive, hnext⟩ := Attempt.foldlM_agree
        (P := fun next : LevelRun × Setting => next.1.Sound spec d old start) step
        (show (run, current).1.Sound spec d old start from h)
      exact ⟨next.1, Explorer.tryParameter_of_ok hs hnew, Explorer.tryParameter_of_ok hs hnaive,
        hnext⟩

/-- **All parameters of an operator.** -/
theorem tryOperator (h : run.Sound spec d old start) (o : Operator) :
    ∃ next, (Explorer.new spec registry).tryOperator level run o = .ok next ∧
      (Explorer.naive spec registry).tryOperator level run o = .ok next ∧
        next.Sound spec d old start :=
  Attempt.foldlM_agree (fun _ p hnext => hnext.tryParameter p) h

/-- **All operators.** -/
theorem tryOperators (h : run.Sound spec d old start) (operators : List Operator) :
    ∃ next, operators.foldlM ((Explorer.new spec registry).tryOperator level) run = .ok next ∧
      operators.foldlM ((Explorer.naive spec registry).tryOperator level) run = .ok next ∧
        next.Sound spec d old start :=
  Attempt.foldlM_agree (fun _ o hnext => hnext.tryOperator o) h

end LevelRun.Sound

/-! ## 4. One level -/

/-- **What the search of a level comes to**: the report says whether the design then fits, and it
    does if one of the new points does, of which the first one is the design from before. -/
structure Searched (spec : TargetSpec) (d : Design) (progress next : Progress)
    (report : LevelReport) : Prop where
  sound : next.Sound spec d
  fits : report.feasible =
    spec.target.fits (spec.estimator.rootMetrics next.annotated.design)
  found : ∃ start rest, next.points = progress.points ++ start :: rest ∧
    start.feasible = spec.target.fits (spec.estimator.rootMetrics progress.annotated.design) ∧
      (report.feasible = true ↔ ∃ pt ∈ start :: rest, pt.feasible = true)

namespace Progress.Sound

variable {progress : Progress}

theorem startLevel_eq {x : Explorer} {root : Metrics}
    (hr : x.upkeep.refresh progress.annotated = (root, progress.annotated)) :
    x.startLevel level progress =
      ⟨⟨progress.annotated, progress.evaluations + 1, progress.points ++
        [(x.candidate level progress.annotated root none).point level]⟩, 1,
        x.candidate level progress.annotated root none⟩ := by
  unfold Explorer.startLevel
  rw [hr]

/-- The configuration that a level starts with is its first candidate. -/
theorem startLevel (h : progress.Sound spec d) (level : RegionId) :
    ∃ start : Point,
      start.feasible = spec.target.fits (spec.estimator.rootMetrics progress.annotated.design) ∧
      (Explorer.naive spec registry).startLevel level progress =
        (Explorer.new spec registry).startLevel level progress ∧
      ((Explorer.new spec registry).startLevel level progress).Sound spec d progress.points
        start := by
  have hself := h.settled.complete.refresh_eq_self
  have hnew : (Explorer.new spec registry).upkeep.refresh progress.annotated = _ := hself
  have hnaive : (Explorer.naive spec registry).upkeep.refresh progress.annotated = _ :=
    h.settled.complete.upToDate.refresh_eq.symm.trans hself
  refine ⟨((Explorer.new spec registry).candidate level progress.annotated
    (spec.estimator.rootMetrics progress.annotated.design) none).point level, rfl, ?_, ?_⟩
  · rw [startLevel_eq hnew, startLevel_eq hnaive,
      Explorer.candidate_congr (Explorer.spec_naive spec registry)]
  · rw [startLevel_eq hnew]
    refine ⟨⟨h.settled, h.points.append h.settled.rules h.settled.bare
      (tellsOf_candidate h.settled nofun)⟩, rfl, rfl, [], rfl, ?_⟩
    refine ⟨fun hf => ⟨_, List.mem_cons_self, hf⟩, ?_⟩
    rintro ⟨pt, hpt, hf⟩
    obtain rfl := List.mem_singleton.mp hpt
    exact hf

/-- **The search of a level** comes to the same with both ways of upkeep. -/
theorem searchLevel (h : progress.Sound spec d) (level : RegionId) :
    ∃ report next, (Explorer.new spec registry).searchLevel level progress = .ok (report, next) ∧
      (Explorer.naive spec registry).searchLevel level progress = .ok (report, next) ∧
        Searched spec d progress next report := by
  obtain ⟨start, hstart, heq, hsound⟩ := @startLevel spec registry d progress h level
  obtain ⟨run, hnew, hnaive, hrun⟩ := @LevelRun.Sound.tryOperators spec registry d progress.points
    start _ level hsound (Explorer.new spec registry).operators
  refine ⟨_, _, Attempt.bind_eq_ok_iff.mpr ⟨run, hnew, rfl⟩, ?_, hrun.progress, ?_, ?_⟩
  · unfold Explorer.searchLevel
    have hspec := Explorer.spec_naive spec registry
    have hregistry := Explorer.registry_naive spec registry
    rw [heq, Explorer.operators_congr hspec hregistry, Explorer.reportLevel_congr hspec hregistry]
    exact Attempt.bind_eq_ok_iff.mpr ⟨run, hnaive, rfl⟩
  · exact hrun.fits.trans (congrArg spec.target.fits hrun.root)
  · obtain ⟨rest, hpoints, hfound⟩ := hrun.found
    exact ⟨start, rest, hpoints, hstart, hfound⟩

end Progress.Sound

end Trial

end DesignSpace
