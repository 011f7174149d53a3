/-
  Subject:   A LEVEL ENDS WITH A CANDIDATE THAT NONE IT EVALUATED IS BETTER THAN. The loops of the
             search are gone through with a list of the candidates on the side; each trial is
             compared with the best one so far, and since being better is an order, what is best in
             the end is maximal among all of them.

  * `Explorer.evaluated`, `Explorer.noteLevel`: the candidates that the search of a level evaluates;
  * `Explorer.searchLevel_eq_noteLevel`: the notes change nothing;
  * `LevelRun.Maximal`: what holds between two trials; `LevelRun.Maximal.concat`: one candidate
    more; `LevelRun.Maximal.noteValue`: **one trial**;
  * `Explorer.maximal_searchLevel`: **the search of a level.**
-/
import DesignSpace.Proofs.Estimate.Counted
import DesignSpace.Proofs.Search.Ranking

namespace DesignSpace

/-! ## 1. What a level evaluates -/

namespace Explorer

variable (x : Explorer) (level : RegionId)

/-- The candidates that a trial evaluates: one, unless the value is passed over or refused. -/
def evaluated (o : Operator) (p : Parameter) : LevelRun × Setting → Setting → List Candidate
  | (run, current), s =>
    if s = current || x.spent run.tried then []
    else
      match o.apply run.progress.annotated p s with
      | (.error _, _) => []
      | (.ok _, a) =>
        let (root, a) := x.upkeep.refresh a
        [x.candidate level a root (some ⟨o.name, p, s⟩)]

/-- One value tried, with the candidates so far. -/
def noteValue (o : Operator) (p : Parameter) :
    (LevelRun × Setting) × List Candidate → Setting →
      Except Halt ((LevelRun × Setting) × List Candidate)
  | (state, cs), s => do
    let next ← x.tryValue level o p state s
    return (next, cs ++ x.evaluated level o p state s)

/-- All values of a parameter, with the candidates so far. -/
def noteParameter (o : Operator) :
    LevelRun × List Candidate → Parameter → Except Halt (LevelRun × List Candidate)
  | (run, cs), p =>
    let a := run.progress.annotated
    match a.design.setting p with
    | .error _ => .ok (run, cs)
    | .ok current => do
      let ((run, _), cs) ← (o.domain a p).foldlM (x.noteValue level o p) ((run, current), cs)
      return (run, cs)

/-- All parameters of an operator, with the candidates so far. -/
def noteOperator :
    LevelRun × List Candidate → Operator → Except Halt (LevelRun × List Candidate)
  | (run, cs), o =>
    (o.targets run.progress.annotated level).foldlM (x.noteParameter level o) (run, cs)

/-- The run of a level, with the candidates that it evaluates after the first one. -/
def noteLevel (progress : Progress) : Except Halt (LevelRun × List Candidate) :=
  x.operators.foldlM (x.noteOperator level) (x.startLevel level progress, [])

variable {x level} {o : Operator} {p : Parameter} {run : LevelRun} {current s : Setting}
  {next : LevelRun × Setting}

theorem fst_noteValue (state : (LevelRun × Setting) × List Candidate) (s : Setting) :
    (x.noteValue level o p state s).map Prod.fst = x.tryValue level o p state.1 s := by
  obtain ⟨state, cs⟩ := state
  unfold noteValue
  dsimp only
  cases x.tryValue level o p state s <;> rfl

theorem fst_noteParameter (state : LevelRun × List Candidate) (p : Parameter) :
    (x.noteParameter level o state p).map Prod.fst = x.tryParameter level o state.1 p := by
  obtain ⟨run, cs⟩ := state
  unfold noteParameter tryParameter
  dsimp only
  cases run.progress.annotated.design.setting p with
  | error err => rfl
  | ok current =>
      dsimp only
      rw [← Attempt.foldlM_fst fst_noteValue _ ((run, current), cs)]
      cases List.foldlM (x.noteValue level o p) ((run, current), cs)
        (o.domain run.progress.annotated p) <;> rfl

theorem fst_noteOperator (state : LevelRun × List Candidate) (o : Operator) :
    (x.noteOperator level state o).map Prod.fst = x.tryOperator level state.1 o :=
  Attempt.foldlM_fst fst_noteParameter _ state

/-- **The notes change nothing**: the search of a level is its run with notes, without them. -/
theorem searchLevel_eq_noteLevel (x : Explorer) (level : RegionId) (progress : Progress) :
    x.searchLevel level progress = (x.noteLevel level progress).map fun r =>
      (x.reportLevel level r.1, r.1.progress) := by
  unfold searchLevel noteLevel
  rw [← Attempt.foldlM_fst fst_noteOperator _ (x.startLevel level progress, [])]
  cases List.foldlM (x.noteOperator level) (x.startLevel level progress, []) x.operators <;> rfl

theorem evaluated_refused (new : s ≠ current) (left : x.spent run.tried = false)
    {err : ChangeError} {a : Annotated}
    (ha : o.apply run.progress.annotated p s = (.error err, a)) :
    x.evaluated level o p (run, current) s = [] := by
  rw [evaluated, if_neg (by simp [new, left])]
  simp only [ha]

theorem evaluated_tried (new : s ≠ current) (left : x.spent run.tried = false)
    {change : Change} {a a' : Annotated} {root : Metrics}
    (ha : o.apply run.progress.annotated p s = (.ok change, a))
    (hr : x.upkeep.refresh a = (root, a')) :
    x.evaluated level o p (run, current) s =
      [x.candidate level a' root (some ⟨o.name, p, s⟩)] := by
  rw [evaluated, if_neg (by simp [new, left])]
  simp only [ha, hr]

/-- **What a trial evaluates**: nothing, and the best candidate stays; or one candidate, which takes
    the place of the best one exactly if it is better. -/
theorem evaluated_cases (h : x.tryValue level o p (run, current) s = .ok next) :
    (x.evaluated level o p (run, current) s = [] ∧ next.1.best = run.best ∧
      next.1.progress.points = run.progress.points) ∨
    ∃ change a a' root c, o.apply run.progress.annotated p s = (.ok change, a) ∧
      x.upkeep.refresh a = (root, a') ∧ c = x.candidate level a' root (some ⟨o.name, p, s⟩) ∧
      x.evaluated level o p (run, current) s = [c] ∧
      next.1.progress.points = run.progress.points ++ [c.point level] ∧
      (c.improvesOn run.best = true ∧ next.1.best = c ∨
        c.improvesOn run.best = false ∧ next.1.best = run.best) := by
  cases step_of_tryValue h with
  | passed hpass => exact .inl ⟨if_pos (by simpa using hpass), rfl, rfl⟩
  | refused hnew hleft happly => exact .inl ⟨evaluated_refused hnew hleft happly, rfl, rfl⟩
  | kept hnew hleft happly hrefresh hc hbetter =>
      exact .inr ⟨_, _, _, _, _, happly, hrefresh, hc,
        hc ▸ evaluated_tried hnew hleft happly hrefresh, rfl, .inl ⟨hbetter, rfl⟩⟩
  | takenBack hnew hleft happly hrefresh hc hbetter =>
      exact .inr ⟨_, _, _, _, _, happly, hrefresh, hc,
        hc ▸ evaluated_tried hnew hleft happly hrefresh, rfl, .inr ⟨hbetter, rfl⟩⟩

end Explorer

/-! ## 2. One trial -/

/-- **What holds between two trials at a level**, where `old` are the points from before the level,
    `first` is the candidate of the configuration that it starts with, and `cs` are those evaluated
    since: the best candidate is the design as it stands, it is one of them, and none of them is
    better. -/
structure LevelRun.Maximal (spec : TargetSpec) (registry : Registry) (d : Design)
    (level : RegionId) (old : List Point) (first : Candidate) (run : LevelRun)
    (cs : List Candidate) : Prop where
  settled : run.progress.annotated.Settled spec.estimator d
  stands : run.best.still =
    (Explorer.new spec registry).candidateOf level run.progress.annotated.design
  numbered : ∀ c ∈ first :: cs, c.Numbered
  among : run.best ∈ first :: cs
  improves : run.best = first ∨ run.best.improvesOn first = true
  maximal : ∀ c ∈ first :: cs, c.improvesOn run.best = false
  points : run.progress.points = old ++ (first :: cs).map fun c => c.point level

section Level

variable {spec : TargetSpec} {registry : Registry} {d : Design} {level : RegionId}
  {old : List Point} {first : Candidate} {run : LevelRun} {cs : List Candidate} {o : Operator}
  {p : Parameter} {current s : Setting} {next : LevelRun × Setting}

/-- The candidate of an estimated design passes its budgets by a number. -/
theorem Explorer.numbered_candidate (x : Explorer) {a : Annotated} {e : Estimator} {d : Design}
    (move : Option Move) : (x.candidate level a (e.rootMetrics d) move).Numbered :=
  (x.spec.target.isAmount_overshoot (e.counted_rootMetrics d)).isNaN

/-- A trial leaves a design that is settled, of which the best candidate tells. -/
theorem LevelRun.Trial.stands (ht : run.Trial spec registry d level o p current s next)
    (h : run.progress.annotated.Settled spec.estimator d)
    (hbest : run.best.still =
      (Explorer.new spec registry).candidateOf level run.progress.annotated.design) :
    next.1.progress.annotated.Settled spec.estimator d ∧ next.1.best.still =
      (Explorer.new spec registry).candidateOf level next.1.progress.annotated.design := by
  have hdistinct := h.complete.distinct
  cases ht with
  | passed => exact ⟨h, hbest⟩
  | refused ha halike =>
      exact ⟨ha, hbest.trans (Explorer.candidateOf_of_alike hdistinct halike).symm⟩
  | tried ha _ _ hback halike =>
      unfold Explorer.outcome
      dsimp only
      split
      · exact ⟨ha, Explorer.still_candidate ha.complete _⟩
      · exact ⟨hback, hbest.trans (Explorer.candidateOf_of_alike hdistinct halike).symm⟩

namespace LevelRun.Maximal

/-- What is better than the best candidate is better than the first one, and none so far is better
    than it. -/
theorem maximal_of_improvesOn (h : run.Maximal spec registry d level old first cs) {c : Candidate}
    (hc : c.Numbered) (hbetter : c.improvesOn run.best = true) :
    c.improvesOn first = true ∧ ∀ b ∈ first :: cs, b.improvesOn c = false := by
  have hbest := h.numbered _ h.among
  constructor
  · rcases h.improves with heq | himproves
    · exact heq ▸ hbetter
    · exact Candidate.improvesOn_transitive hc hbest (h.numbered _ List.mem_cons_self) hbetter
        himproves
  · intro b hb
    rw [Bool.eq_false_iff]
    intro hbc
    have hover := Candidate.improvesOn_transitive (h.numbered b hb) hc hbest hbc hbetter
    rw [h.maximal b hb] at hover
    cases hover

/-- One more candidate is evaluated; it takes the place of the best one exactly if it is better. -/
theorem concat (h : run.Maximal spec registry d level old first cs) {after : LevelRun}
    {c : Candidate} (hc : c.Numbered)
    (hsettled : after.progress.annotated.Settled spec.estimator d)
    (hstands : after.best.still =
      (Explorer.new spec registry).candidateOf level after.progress.annotated.design)
    (hpoints : after.progress.points = run.progress.points ++ [c.point level])
    (hbest : c.improvesOn run.best = true ∧ after.best = c ∨
      c.improvesOn run.best = false ∧ after.best = run.best) :
    after.Maximal spec registry d level old first (cs ++ [c]) := by
  have hmem : ∀ b, b ∈ first :: (cs ++ [c]) ↔ b ∈ first :: cs ∨ b = c := by
    intro b
    rw [← List.cons_append, List.mem_append, List.mem_singleton]
  have hnumbered : ∀ b ∈ first :: (cs ++ [c]), b.Numbered := fun b hb =>
    ((hmem b).mp hb).elim (h.numbered b) fun heq => heq ▸ hc
  have hall : after.progress.points =
      old ++ (first :: (cs ++ [c])).map fun b => b.point level := by
    rw [hpoints, h.points, ← List.cons_append, List.map_append, List.append_assoc]
    rfl
  rcases hbest with ⟨hbetter, hbest⟩ | ⟨hworse, hbest⟩
  · obtain ⟨hfirst, hover⟩ := h.maximal_of_improvesOn hc hbetter
    refine ⟨hsettled, hstands, hnumbered, ?_, .inr (hbest ▸ hfirst), ?_, hall⟩
    · exact hbest ▸ (hmem c).mpr (.inr rfl)
    · intro b hb
      rw [hbest]
      rcases (hmem b).mp hb with hb | rfl
      · exact hover b hb
      · exact Candidate.improvesOn_irrefl hc
  · refine ⟨hsettled, hstands, hnumbered, ?_, hbest ▸ h.improves, ?_, hall⟩
    · exact hbest ▸ (hmem _).mpr (.inl h.among)
    · intro b hb
      rw [hbest]
      rcases (hmem b).mp hb with hb | rfl
      · exact h.maximal b hb
      · exact hworse

/-- **One trial**: it never stops the search, and what it evaluates is taken in. -/
theorem noteValue (h : run.Maximal spec registry d level old first cs) (current s : Setting) :
    ∃ next, (Explorer.new spec registry).noteValue level o p ((run, current), cs) s = .ok next ∧
      next.1.1.Maximal spec registry d level old first next.2 := by
  obtain ⟨next, hv, -, ht⟩ := @LevelRun.exists_trial spec registry d run level o p h.settled
    current s
  refine ⟨_, Attempt.bind_eq_ok_iff.mpr ⟨next, hv, rfl⟩, ?_⟩
  obtain ⟨hsettled, hstands⟩ := ht.stands h.settled h.stands
  dsimp only
  rcases Explorer.evaluated_cases hv with ⟨hnone, hbest, hpoints⟩ |
    ⟨change, a, a', root, c, happly, hrefresh, hc, hone, hpoints, hbest⟩
  · rw [hnone, List.append_nil]
    exact ⟨hsettled, hstands, h.numbered, hbest ▸ h.among, hbest ▸ h.improves, hbest ▸ h.maximal,
      hpoints.trans h.points⟩
  · -- the overshoot is that of an estimate
    obtain ⟨-, -, -, rfl⟩ := h.settled.applied happly hrefresh
    rw [hone]
    exact h.concat (hc ▸ Explorer.numbered_candidate _ _) hsettled hstands hpoints hbest

/-- All values of a parameter. -/
theorem noteParameter (h : run.Maximal spec registry d level old first cs) (o : Operator)
    (p : Parameter) :
    ∃ next, (Explorer.new spec registry).noteParameter level o (run, cs) p = .ok next ∧
      next.1.Maximal spec registry d level old first next.2 := by
  unfold Explorer.noteParameter
  dsimp only
  cases run.progress.annotated.design.setting p with
  | error err => exact ⟨_, rfl, h⟩
  | ok current =>
      obtain ⟨next, hnext, hmax⟩ := Attempt.foldlM_total
        (P := fun state : (LevelRun × Setting) × List Candidate =>
          state.1.1.Maximal spec registry d level old first state.2)
        (f := (Explorer.new spec registry).noteValue level o p)
        (fun state s (_ : s ∈ o.domain run.progress.annotated p) hstate =>
          hstate.noteValue state.1.2 s)
        (show ((run, current), cs).1.1.Maximal spec registry d level old first cs from h)
      exact ⟨_, Attempt.bind_eq_ok_iff.mpr ⟨next, hnext, rfl⟩, hmax⟩

/-- All parameters of an operator. -/
theorem noteOperator (h : run.Maximal spec registry d level old first cs) (o : Operator) :
    ∃ next, (Explorer.new spec registry).noteOperator level (run, cs) o = .ok next ∧
      next.1.Maximal spec registry d level old first next.2 :=
  Attempt.foldlM_total (fun _ p _ hstate => hstate.noteParameter o p) h

/-- What the table says of the design as it stands: the metrics of its root and the latency of the
    level are those of the best candidate. -/
theorem table (h : run.Maximal spec registry d level old first cs) :
    let a := run.progress.annotated
    a.table.metrics? a.design.root.id = some run.best.root ∧
      (level ∈ a.design.preorder →
        (a.table.metrics? level).map Metrics.latency = some run.best.levelLatency) := by
  have hcomplete := h.settled.complete
  have hstands := h.stands
  rw [Explorer.candidateOf_eq hcomplete.distinct] at hstands
  have hroot : run.best.root = spec.estimator.rootMetrics run.progress.annotated.design :=
    congrArg (fun c : Candidate => c.root) hstands
  have hlatency : run.best.levelLatency =
      spec.estimator.latencyAt run.progress.annotated.design level :=
    congrArg (fun c : Candidate => c.levelLatency) hstands
  dsimp only
  rw [hroot, hlatency]
  constructor
  · rw [Table.metrics?, hcomplete.full, spec.estimator.estimate?_root]
    rfl
  · intro hlevel
    obtain ⟨x, hx⟩ := Option.isSome_iff_exists.mp
      (Estimator.estimate?_isSome_iff (e := spec.estimator).mpr hlevel)
    rw [Table.metrics?, hcomplete.full, Estimator.latencyAt, hx]
    rfl

end LevelRun.Maximal

end Level

/-! ## 3. One level -/

/-- **What the search of a level may start from**: a design that keeps the rules, with a table that
    is up to date, also if entries are missing. -/
structure Annotated.Ready (e : Estimator) (a : Annotated) : Prop where
  upToDate : a.UpToDate e
  rules : a.design.check = .ok ()

/-- The design of a listing is ready before anything is estimated. -/
theorem Listing.ready_of_design {l : Listing} {d : Design} (hd : l.design = .ok d) (e : Estimator) :
    Annotated.Ready e ⟨d, .empty⟩ :=
  ⟨Annotated.upToDate_empty e (nodup_of_design hd), (tree_of_design hd).2⟩

/-- It is ready with all estimates made, too. A search of the whole design starts so. -/
theorem Listing.ready_of_run {l : Listing} {d : Design} (hd : l.design = .ok d) {e : Estimator}
    {t : Table} {summary : Summary} {a : Annotated} (h : e.run ⟨d, t⟩ = .ok (summary, a)) :
    a.Ready e := by
  obtain ⟨hcomplete, hdesign⟩ := Estimator.complete_run (nodup_of_design hd) h
  exact ⟨hcomplete.upToDate, hdesign ▸ (tree_of_design hd).2⟩

section Search

variable {spec : TargetSpec} {registry : Registry} {level : RegionId} {progress : Progress}

/-- The configuration that a level starts with is its first candidate. -/
theorem Annotated.Ready.maximal_startLevel (h : progress.annotated.Ready spec.estimator) :
    let x := Explorer.new spec registry
    (x.startLevel level progress).best = x.candidateOf level progress.annotated.design ∧
      (x.startLevel level progress).Maximal spec registry progress.annotated.design level
        progress.points (x.candidateOf level progress.annotated.design) [] := by
  intro x
  have hdesign := spec.estimator.design_refresh progress.annotated
  have hcomplete := h.upToDate.complete_refresh
  obtain ⟨a, ha⟩ : ∃ a, (spec.estimator.refresh progress.annotated).2 = a := ⟨_, rfl⟩
  rw [ha] at hdesign hcomplete
  have hrefresh : x.upkeep.refresh progress.annotated =
      (spec.estimator.rootMetrics a.design, a) := by
    rw [hdesign, ← h.upToDate.fst_refresh, ← ha]
    rfl
  have hfirst : x.candidate level a (spec.estimator.rootMetrics a.design) none =
      x.candidateOf level progress.annotated.design :=
    hdesign ▸ Explorer.still_candidate hcomplete none
  unfold Explorer.startLevel
  rw [hrefresh]
  dsimp only
  rw [hfirst]
  have hnumbered : (x.candidateOf level progress.annotated.design).Numbered :=
    hfirst ▸ x.numbered_candidate none
  refine ⟨rfl, ⟨hcomplete, hdesign ▸ h.rules, congrArg Design.bare hdesign⟩, ?_, ?_,
    List.mem_cons_self, .inl rfl, ?_, rfl⟩
  · exact hdesign ▸ rfl
  · exact fun c hc => List.mem_singleton.mp hc ▸ hnumbered
  · intro c hc
    obtain rfl := List.mem_singleton.mp hc
    exact Candidate.improvesOn_irrefl hnumbered

/-- All operators. -/
theorem Annotated.Ready.maximal_noteLevel (h : progress.annotated.Ready spec.estimator) :
    let x := Explorer.new spec registry
    ∃ run cs, x.noteLevel level progress = .ok (run, cs) ∧
      run.Maximal spec registry progress.annotated.design level progress.points
        (x.candidateOf level progress.annotated.design) cs := by
  obtain ⟨-, hstart⟩ := @maximal_startLevel spec registry level progress h
  obtain ⟨next, hnext, hmax⟩ := Attempt.foldlM_total
    (P := fun state : LevelRun × List Candidate => state.1.Maximal spec registry
      progress.annotated.design level progress.points
      ((Explorer.new spec registry).candidateOf level progress.annotated.design) state.2)
    (b := ((Explorer.new spec registry).startLevel level progress, []))
    (fun _ o (_ : o ∈ (Explorer.new spec registry).operators) hstate => hstate.noteOperator o)
    hstart
  exact ⟨next.1, next.2, hnext, hmax⟩

end Search

namespace Explorer

/-- **The search of a level commits a maximal candidate.** On candidates whose overshoot is a
    number, being better is irreflexive, asymmetric and transitive. Take any search of a level, with
    any target, options and operators, of a design that keeps the rules and has no outdated
    estimates, such as any design of a listing, before it is estimated and after. It has a result.
    `first` is the candidate of the configuration that it starts with, and `cs` are those that it
    evaluates then, each with a point; the overshoot of each is a number. The best of the run is one
    of them, and it is the design as it is left. It is the first one or better than that, none of
    them is better than it, and the table holds the metrics that it has of the root and its latency
    of the level. What is left is again such a design. -/
theorem maximal_searchLevel :
    (∀ a : Candidate, a.Numbered → a.improvesOn a = false) ∧
    (∀ a b : Candidate, a.Numbered → b.Numbered → a.improvesOn b = true →
      b.improvesOn a = false) ∧
    (∀ a b c : Candidate, a.Numbered → b.Numbered → c.Numbered → a.improvesOn b = true →
      b.improvesOn c = true → a.improvesOn c = true) ∧
    (∀ (l : Listing) (d : Design) (e : Estimator), l.design = .ok d →
      Annotated.Ready e ⟨d, .empty⟩ ∧
        ∀ t summary a, e.run ⟨d, t⟩ = .ok (summary, a) → a.Ready e) ∧
    ∀ (spec : TargetSpec) (registry : Registry) (level : RegionId) (progress : Progress),
      progress.annotated.Ready spec.estimator →
      let x := new spec registry
      let first := x.candidateOf level progress.annotated.design
      ∃ run cs, x.noteLevel level progress = .ok (run, cs) ∧
        x.searchLevel level progress = .ok (x.reportLevel level run, run.progress) ∧
        (x.startLevel level progress).best = first ∧
        run.progress.points = progress.points ++ (first :: cs).map (fun c => c.point level) ∧
        (∀ c ∈ first :: cs, c.Numbered) ∧
        run.best ∈ first :: cs ∧
        run.best.still = x.candidateOf level run.progress.annotated.design ∧
        (run.best = first ∨ run.best.improvesOn first = true) ∧
        (∀ c ∈ first :: cs, c.improvesOn run.best = false) ∧
        run.progress.annotated.table.metrics? run.progress.annotated.design.root.id =
          some run.best.root ∧
        (level ∈ run.progress.annotated.design.preorder →
          (run.progress.annotated.table.metrics? level).map Metrics.latency =
            some run.best.levelLatency) ∧
        run.progress.annotated.Ready spec.estimator := by
  refine ⟨fun _ => Candidate.improvesOn_irrefl, fun _ _ => Candidate.improvesOn_asymm,
    fun _ _ _ => Candidate.improvesOn_transitive, fun _ _ e hd =>
    ⟨Listing.ready_of_design hd e, fun _ _ _ => Listing.ready_of_run hd⟩,
    fun spec registry level progress h => ?_⟩
  obtain ⟨run, cs, hrun, hmax⟩ := @Annotated.Ready.maximal_noteLevel spec registry level progress h
  obtain ⟨hstart, -⟩ := @Annotated.Ready.maximal_startLevel spec registry level progress h
  obtain ⟨hroot, hlevel⟩ := hmax.table
  refine ⟨run, cs, hrun, ?_, hstart, hmax.points, hmax.numbered, hmax.among, hmax.stands,
    hmax.improves, hmax.maximal, hroot, hlevel, hmax.settled.complete.upToDate,
    hmax.settled.rules⟩
  rw [searchLevel_eq_noteLevel, hrun]
  rfl

end Explorer

/-- A budget of one unit, and four configurations for each level. -/
def Smoothing.narrow : TargetSpec where
  target := { budgets := { computeUnits := some 1 } }
  options := { candidateBudget := some 4 }

/-- A level that is searched outside its budgets. The first trial is faster with as much hardware,
    the second is nearer to the budgets than that and stays, and the third is farther away again. -/
theorem Explorer.maximal_searchLevel_smoothing :
    Smoothing.listing.design = .ok Smoothing.design ∧
    let x := new Smoothing.narrow .standard
    let first := x.candidateOf 1 Smoothing.design
    ∃ run cs, x.noteLevel 1 { annotated := ⟨Smoothing.design, .empty⟩ } = .ok (run, cs) ∧
      cs.map (fun c => (c.improvesOn first, run.best.improvesOn c)) =
        [(true, true), (true, false), (true, true)] ∧
      run.best.feasible = false ∧ run.best.improvesOn first = true ∧
      first.improvesOn run.best = false ∧ (∀ c ∈ first :: cs, c.improvesOn run.best = false) ∧
      (run.progress.annotated.table.metrics? 0).map Metrics.resources =
        some run.best.root.resources ∧
      run.best.root.resources.computeUnits = 2 := by
  obtain ⟨-, hasymm, htrans, hready, hsearch⟩ := maximal_searchLevel
  obtain ⟨run, cs, hrun, -, -, -, hnumbered, hamong, -, -, hmaximal, hroot, -⟩ :=
    hsearch Smoothing.narrow .standard 1 { annotated := ⟨Smoothing.design, .empty⟩ }
      (hready _ _ _ Smoothing.design_listing).1
  have hfacts : ((new Smoothing.narrow .standard).noteLevel 1
      { annotated := ⟨Smoothing.design, .empty⟩ }).toOption.map (fun r =>
        (r.2.map fun c =>
          (c.improvesOn ((new Smoothing.narrow .standard).candidateOf 1 Smoothing.design),
            r.1.best.improvesOn c),
          r.1.best.feasible, r.1.best.root.resources.computeUnits,
          r.1.progress.annotated.design.root.id)) =
      some ([(true, true), (true, false), (true, true)], false, 2, 0) := by
    decide +kernel
  rw [hrun] at hfacts
  obtain ⟨hcs, hfacts⟩ := Prod.mk.inj (Option.some.inj hfacts)
  obtain ⟨hfeasible, hfacts⟩ := Prod.mk.inj hfacts
  obtain ⟨hunits, hid⟩ := Prod.mk.inj hfacts
  -- the first trial stands between the configuration at the start and the best one
  obtain ⟨middle, rest, rfl, hmiddle, -⟩ := List.map_eq_cons_iff.mp hcs
  obtain ⟨hover, hbest⟩ := Prod.mk.inj hmiddle
  have hfirst := hnumbered _ List.mem_cons_self
  have hbestNumbered := hnumbered _ hamong
  have himproves := htrans _ _ _ hbestNumbered
    (hnumbered middle (List.mem_cons_of_mem _ List.mem_cons_self)) hfirst hbest hover
  rw [hid] at hroot
  exact ⟨Smoothing.design_listing, run, _, hrun, hcs, hfeasible, himproves,
    hasymm _ _ hbestNumbered hfirst himproves, hmaximal,
    congrArg (Option.map Metrics.resources) hroot, hunits⟩

end DesignSpace
