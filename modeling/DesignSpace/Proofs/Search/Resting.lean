/-
  Subject:   DESIGNS AT REST. A level is searched by trials of single values, each of them compared
             with the best design so far. As long as none is better, they are all trials of the
             design that the level started with; so whether the search moves at all can be told
             from that design alone.

  * `Explorer.candidateOf`, `Explorer.trials`, `Explorer.betters`: what the trials of one design at
    a level are, and when one of them is better;
  * `Explorer.RestsAt`, `Explorer.Rests`: **a design at rest** at a level, and at all levels;
  * `Candidate.improvesOn_trans`, `not_improvesOn_self`: being better is an order where the budgets
    are kept;
  * `LevelRun.Resting`, `LevelRun.Moved`: a level that has not moved yet, and one that has;
  * `LevelRun.Sound.tracks_tryValue`, `tracks_tryOperator`: **each trial tells the two apart**;
  * `Progress.Sound.alike_of_restsAt`, `restsAt_of_alike`: **the search of a level moves exactly if
    the design does not rest there.**
-/
import DesignSpace.Proofs.Search.Committed
import DesignSpace.Proofs.Search.Latency

namespace DesignSpace

variable {spec : TargetSpec} {registry : Registry} {d c c' : Design} {level : RegionId}

/-! ## 1. The trials of one design -/

/-- A candidate without the move that led to it. -/
def Candidate.still (c : Candidate) : Candidate := { c with move := none }

namespace Operator

/-- The trial of a value: none if it is the value that the parameter has. -/
def trial (o : Operator) (d : Design) (p : Parameter) (s : Setting) : List Move :=
  if d.setting p = .ok s then [] else [⟨o.name, p, s⟩]

/-- The trials of an operator at a level. -/
def trials (o : Operator) (level : RegionId) (d : Design) : List Move :=
  (o.targets ⟨d, .empty⟩ level).flatMap fun p => (o.domain ⟨d, .empty⟩ p).flatMap (o.trial d p)

end Operator

namespace Explorer

variable (x : Explorer)

/-- The candidate that a design is at a level, estimated as a whole. -/
def candidateOf (level : RegionId) (d : Design) : Candidate :=
  let (root, a) := x.spec.estimator.refresh ⟨d, .empty⟩
  x.candidate level a root none

/-- The trials of a design at a level: each parameter that an operator has there, with each value of
    its domain that is not the one it has. -/
def trials (level : RegionId) (d : Design) : List Move :=
  x.operators.flatMap fun o => o.trials level d

/-- As many trials as the budget allows; the configuration that a level starts with counts too. -/
def allowed (trials : List Move) : List Move :=
  match x.spec.options.candidateBudget with
  | some budget => trials.take (budget - 1)
  | none => trials

/-- Whether a trial of a design, on its own, makes it better. -/
def betters (level : RegionId) (d : Design) (m : Move) : Bool :=
  match d.write m.parameter m.setting with
  | .ok c => (x.candidateOf level c).improvesOn (x.candidateOf level d)
  | .error _ => false

/-- **A design at rest at a level**: no trial that the budget allows makes it better. -/
def RestsAt (level : RegionId) (d : Design) : Prop :=
  ∀ m ∈ x.allowed (x.trials level d), x.betters level d m = false

/-- **A design at rest**: it is at rest at each of its levels. -/
def Rests (d : Design) : Prop := ∀ level ∈ x.levels ⟨d, .empty⟩, x.RestsAt level d

instance (d : Design) : Decidable (x.Rests d) :=
  inferInstanceAs (Decidable (∀ level ∈ x.levels ⟨d, .empty⟩,
    ∀ m ∈ x.allowed (x.trials level d), x.betters level d m = false))

end Explorer

/-! ## 2. Candidates -/

namespace Resources

variable {a b r : Resources}

theorem eq_of_fitsWithin (h : a.fitsWithin b = true) (h' : b.fitsWithin a = true) : a = b := by
  have hget : ∀ k, a.get k = b.get k := fun k =>
    Nat.le_antisymm ((fitsWithin_iff a b).mp h k) ((fitsWithin_iff b a).mp h' k)
  obtain ⟨computeUnits, memoryPorts, storageElements, controlUnits⟩ := a
  obtain ⟨computeUnits', memoryPorts', storageElements', controlUnits'⟩ := b
  cases hget .computeUnit
  cases hget .memoryPort
  cases hget .storageElement
  cases hget .controlUnit
  rfl

theorem not_strictlyBelow_self (a : Resources) : a.strictlyBelow a = false := by
  simp [strictlyBelow]

theorem strictlyBelow_trans (h : a.strictlyBelow b = true) (h' : b.strictlyBelow r = true) :
    a.strictlyBelow r = true := by
  obtain ⟨hab, hne⟩ := Bool.and_eq_true_iff.mp h
  obtain ⟨hbr, -⟩ := Bool.and_eq_true_iff.mp h'
  refine Bool.and_eq_true_iff.mpr ⟨(fitsWithin_iff a r).mpr fun k => ?_, bne_iff_ne.mpr ?_⟩
  · exact Nat.le_trans ((fitsWithin_iff a b).mp hab k) ((fitsWithin_iff b r).mp hbr k)
  · intro har
    subst har
    exact bne_iff_ne.mp hne (eq_of_fitsWithin hab hbr)

end Resources

namespace Candidate

variable {a b best : Candidate}

@[simp]
theorem still_improvesOn (a b : Candidate) : a.still.improvesOn b = a.improvesOn b := rfl

@[simp]
theorem improvesOn_still (a b : Candidate) : a.improvesOn b.still = a.improvesOn b := rfl

theorem not_fasterThan_self (a : Candidate) : a.fasterThan a = false := by
  unfold fasterThan
  cases a.levelLatency <;> simp [Resources.not_strictlyBelow_self]

theorem fasterThan_trans (h : a.fasterThan b = true) (h' : b.fasterThan best = true) :
    a.fasterThan best = true := by
  unfold fasterThan at h h' ⊢
  cases ha : a.levelLatency with
  | known m =>
      cases hbest : best.levelLatency with
      | unknown => rfl
      | known k =>
          cases hb : b.levelLatency with
          | unknown => rw [hb, hbest] at h'; cases h'
          | known n =>
              rw [ha, hb] at h
              rw [hb, hbest] at h'
              simp only [Bool.or_eq_true, Bool.and_eq_true, decide_eq_true_eq] at h h' ⊢
              rcases h with hlt | ⟨rfl, hless⟩ <;> rcases h' with hlt' | ⟨rfl, hless'⟩
              · exact .inl (Nat.lt_trans hlt hlt')
              · exact .inl hlt
              · exact .inl hlt'
              · exact .inr ⟨rfl, Resources.strictlyBelow_trans hless hless'⟩
  | unknown =>
      cases hb : b.levelLatency with
      | known n => rw [ha, hb] at h; cases h
      | unknown =>
          rw [ha, hb] at h
          cases hbest : best.levelLatency with
          | known k => rw [hb, hbest] at h'; cases h'
          | unknown =>
              rw [hb, hbest] at h'
              exact Resources.strictlyBelow_trans h h'

theorem improvesOn_of_feasible (ha : a.feasible = true) (hb : b.feasible = true) :
    a.improvesOn b = a.fasterThan b := by
  unfold improvesOn
  rw [ha, hb]

/-- Nothing that fits is better than itself. -/
theorem not_improvesOn_self (ha : a.feasible = true) : a.improvesOn a = false :=
  (improvesOn_of_feasible ha ha).trans a.not_fasterThan_self

/-- **What is better than something better** than a candidate that fits is better than that. -/
theorem improvesOn_trans (h : a.improvesOn b = true) (h' : b.improvesOn best = true)
    (hbest : best.feasible = true) : a.improvesOn best = true := by
  have hb := feasible_of_improvesOn h' hbest
  have ha := feasible_of_improvesOn h hb
  rw [improvesOn_of_feasible ha hb] at h
  rw [improvesOn_of_feasible hb hbest] at h'
  rw [improvesOn_of_feasible ha hbest]
  exact fasterThan_trans h h'

end Candidate

namespace Explorer

/-- What the candidate of a design is made of. -/
theorem candidateOf_eq (hd : d.preorder.Nodup) : (new spec registry).candidateOf level d =
    { move := none
      levelLatency := spec.estimator.latencyAt d level
      root := spec.estimator.rootMetrics d
      feasible := spec.target.fits (spec.estimator.rootMetrics d)
      overshoot := spec.target.overshoot (spec.estimator.rootMetrics d) } := by
  have hup := Annotated.upToDate_empty spec.estimator hd
  have hlatency : ((new spec registry).candidate level _ (spec.estimator.rootMetrics d)
      none).levelLatency = spec.estimator.latencyAt _ level :=
    levelLatency_candidate hup.complete_refresh _ none
  rw [spec.estimator.design_refresh] at hlatency
  show (new spec registry).candidate level _ (spec.estimator.refresh ⟨d, .empty⟩).1 none = _
  rw [hup.fst_refresh, ← hlatency]
  rfl

/-- A candidate that comes up in a search is that of the design, but for its move. -/
theorem still_candidate {a : Annotated} (ha : a.Complete spec.estimator) (move : Option Move) :
    ((new spec registry).candidate level a (spec.estimator.rootMetrics a.design) move).still =
      (new spec registry).candidateOf level a.design := by
  rw [candidateOf_eq ha.distinct, ← levelLatency_candidate (x := new spec registry) ha
    (spec.estimator.rootMetrics a.design) none]
  rfl

/-- Designs that are alike are the same candidate. -/
theorem candidateOf_of_alike (hc : c.preorder.Nodup) (h : c.Alike c') :
    (new spec registry).candidateOf level c' = (new spec registry).candidateOf level c := by
  have hc' : c'.preorder.Nodup := by
    rw [Design.preorder_of_bare h.forest_bare_eq]
    exact hc
  rw [candidateOf_eq hc, candidateOf_eq hc', h.latencyAt_eq, h.rootMetrics_eq]

/-- A trial that can be made is compared as the designs are with and without it. -/
theorem betters_of_write (hd : d.preorder.Nodup) (hlike : d.Alike c) {m : Move}
    (hw : c.write m.parameter m.setting = .ok c') :
    (new spec registry).betters level d m = ((new spec registry).candidateOf level c').improvesOn
      ((new spec registry).candidateOf level d) := by
  obtain ⟨e, he, halike⟩ := hlike.symm.exists_write hw
  have he' : e.preorder.Nodup := by
    rw [Design.preorder_of_bare (Design.forest_of_bare (Design.bare_write he))]
    exact hd
  unfold betters
  rw [he]
  dsimp only
  rw [candidateOf_of_alike he' halike.symm]

/-! ## 3. The budget -/

variable {x : Explorer} {done more : List Move} {m : Move}

/-- Once the budget is spent no more trials are allowed. -/
theorem allowed_append_of_spent (h : x.spent ((x.allowed done).length + 1) = true)
    (more : List Move) : x.allowed (done ++ more) = x.allowed done := by
  unfold spent at h
  unfold allowed at h ⊢
  cases hb : x.spec.options.candidateBudget with
  | none => rw [hb] at h; cases h
  | some budget =>
      rw [hb] at h
      have h := of_decide_eq_true h
      rw [List.length_take] at h
      exact List.take_append_of_le_length (by omega)

/-- Before, each trial is. -/
theorem allowed_concat_of_left (h : x.spent ((x.allowed done).length + 1) = false) (m : Move) :
    x.allowed (done ++ [m]) = x.allowed done ++ [m] := by
  unfold spent at h
  unfold allowed at h ⊢
  cases hb : x.spec.options.candidateBudget with
  | none => rfl
  | some budget =>
      rw [hb] at h
      have h := of_decide_eq_false h
      rw [List.length_take] at h
      dsimp only
      rw [List.take_of_length_le (by rw [List.length_append, List.length_singleton]; omega),
        List.take_of_length_le (by omega)]

theorem mem_of_mem_allowed (h : m ∈ x.allowed done) : m ∈ done := by
  unfold allowed at h
  cases hb : x.spec.options.candidateBudget with
  | none => rwa [hb] at h
  | some budget =>
      rw [hb] at h
      exact List.mem_of_mem_take h

theorem mem_allowed_append (h : m ∈ x.allowed done) (more : List Move) :
    m ∈ x.allowed (done ++ more) := by
  unfold allowed at h ⊢
  cases hb : x.spec.options.candidateBudget with
  | none =>
      rw [hb] at h
      exact List.mem_append_left more h
  | some budget =>
      rw [hb] at h
      dsimp only
      rw [List.take_append]
      exact List.mem_append_left _ h

end Explorer

/-! ## 4. One trial -/

/-- **A level that has not moved yet**, where `done` are the trials of the design so far: none of
    those that were allowed is better, and the design as it stands is alike. -/
structure LevelRun.Resting (x : Explorer) (level : RegionId) (d : Design) (done : List Move)
    (run : LevelRun) : Prop where
  alike : d.Alike run.progress.annotated.design
  best : run.best.still = x.candidateOf level d
  tried : run.tried = (x.allowed done).length + 1
  vain : ∀ m ∈ x.allowed done, x.betters level d m = false

/-- **A level that has moved**: one of the trials of the design was better; and if the design keeps
    its budgets, the best candidate has been better than it ever since. -/
structure LevelRun.Moved (x : Explorer) (level : RegionId) (d : Design) (done : List Move)
    (run : LevelRun) : Prop where
  found : ∃ m ∈ x.allowed done, x.betters level d m = true
  better : (x.candidateOf level d).feasible = true →
    run.best.improvesOn (x.candidateOf level d) = true

/-- A level that has or has not moved. -/
def LevelRun.Tracks (x : Explorer) (level : RegionId) (d : Design) (done : List Move)
    (run : LevelRun) : Prop :=
  run.Resting x level d done ∨ run.Moved x level d done

/-- The same between two values of a parameter: until the level moves the value that the parameter
    has is the one that it has in the design. -/
def LevelRun.TracksValue (x : Explorer) (level : RegionId) (d : Design) (current : Setting)
    (done : List Move) (state : LevelRun × Setting) : Prop :=
  state.1.Resting x level d done ∧ state.2 = current ∨ state.1.Moved x level d done

section Level

variable {x : Explorer} {run first : LevelRun} {o : Operator} {p : Parameter} {current s : Setting}
  {done more : List Move} {next : LevelRun × Setting} {old : List Point} {start : Point}

/-- A trial keeps the best candidate or finds a better one. -/
theorem Explorer.best_of_tryValue (h : x.tryValue level o p (run, current) s = .ok next) :
    next.1.best = run.best ∨ next.1.best.improvesOn run.best = true := by
  cases step_of_tryValue h with
  | passed => exact .inl rfl
  | refused => exact .inl rfl
  | kept _ _ _ _ _ hbetter => exact .inr hbetter
  | takenBack => exact .inl rfl

namespace LevelRun

/-- What has moved does not come back. -/
theorem Moved.tryValue (h : run.Moved x level d done)
    (hv : x.tryValue level o p (run, current) s = .ok next) (more : List Move) :
    next.1.Moved x level d (done ++ more) := by
  obtain ⟨m, hm, hbetters⟩ := h.found
  refine ⟨⟨m, Explorer.mem_allowed_append hm more, hbetters⟩, fun hfits => ?_⟩
  rcases Explorer.best_of_tryValue hv with heq | hbetter
  · rw [heq]
    exact h.better hfits
  · exact Candidate.improvesOn_trans hbetter (h.better hfits) hfits

theorem Moved.ofReach (h : first.Moved x level d done) {c : Design}
    (hreach : Reach x c level first run) (more : List Move) :
    run.Moved x level d (done ++ more) := by
  induction hreach with
  | start =>
      obtain ⟨m, hm, hbetters⟩ := h.found
      exact ⟨⟨m, Explorer.mem_allowed_append hm more, hbetters⟩, h.better⟩
  | trial _ _ hv ih =>
      have hnext := ih.tryValue hv []
      rwa [List.append_nil] at hnext

end LevelRun

/-- The design that a search is about has different numbers, as the one it comes to has. -/
theorem Annotated.Settled.nodup {e : Estimator} {a : Annotated} (ha : a.Settled e d) :
    d.preorder.Nodup :=
  Design.preorder_of_bare (Design.forest_of_bare ha.bare) ▸ ha.complete.distinct

/-- A trial that is made, with its estimates: the design is the one with the value, its table is
    complete, and the root has the metrics that it then has. -/
theorem Annotated.Settled.applied {a b b' : Annotated} {change : Change} {root : Metrics}
    (ha : a.Settled spec.estimator d) (happly : o.apply a p s = (.ok change, b))
    (hrefresh : spec.estimator.refresh b = (root, b')) :
    a.set p s = (.ok change, b) ∧ a.design.write p s = .ok b'.design ∧
      b'.Complete spec.estimator ∧ root = spec.estimator.rootMetrics b'.design := by
  have hset : a.set p s = (.ok change, b) := by
    rcases o.apply_cases a p s with ⟨err, herr⟩ | heq
    · rw [happly] at herr
      cases herr
    · exact heq.symm.trans happly
  obtain ⟨hup, hsettled, hw, -⟩ := ha.trial hset
  have hdesign : b'.design = b.design :=
    (congrArg (fun r => r.2.design) hrefresh).symm.trans (spec.estimator.design_refresh b)
  have hroot : root = spec.estimator.rootMetrics b.design :=
    (congrArg Prod.fst hrefresh).symm.trans hup.fst_refresh
  rw [hrefresh] at hsettled
  exact ⟨hset, hdesign ▸ hw, hsettled.complete, hdesign ▸ hroot⟩

namespace LevelRun.Resting

/-- A trial when the budget is spent. -/
theorem pass (h : run.Resting x level d done) (hspent : x.spent run.tried = true)
    (more : List Move) : run.Resting x level d (done ++ more) := by
  have hallowed : x.allowed (done ++ more) = x.allowed done :=
    Explorer.allowed_append_of_spent (h.tried ▸ hspent) more
  exact ⟨h.alike, h.best, hallowed ▸ h.tried, hallowed ▸ h.vain⟩

/-- **As long as a level has not moved**, its trials are those of the design that it started
    with. -/
theorem improvesOn_best {a b : Annotated} {change : Change} {root : Metrics}
    (h : run.Resting (Explorer.new spec registry) level d done) (hsound : run.Sound spec d old start)
    (happly : o.apply run.progress.annotated p s = (.ok change, a))
    (hrefresh : spec.estimator.refresh a = (root, b)) (move : Option Move) :
    ((Explorer.new spec registry).candidate level b root move).improvesOn run.best =
      (Explorer.new spec registry).betters level d ⟨o.name, p, s⟩ := by
  have hsettled := hsound.progress.settled
  obtain ⟨-, hw, hcomplete, rfl⟩ := hsettled.applied happly hrefresh
  rw [Explorer.betters_of_write hsettled.nodup h.alike hw,
    ← Explorer.still_candidate hcomplete move, ← h.best, Candidate.improvesOn_still,
    Candidate.still_improvesOn]

/-- **One trial of a design at rest** is the next one of the design. The level moves exactly if it
    is better. -/
theorem tryValue (h : run.Resting (Explorer.new spec .standard) level d done)
    (hsound : run.Sound spec d old start) (ho : o ∈ Registry.standard.operators)
    (hp : p ∈ o.targets ⟨d, .empty⟩ level) (hs : d.Admits p s) (hnew : s ≠ current)
    (hv : (Explorer.new spec .standard).tryValue level o p (run, current) s = .ok next) :
    TracksValue (Explorer.new spec .standard) level d current (done ++ [⟨o.name, p, s⟩]) next := by
  have hsettled := hsound.progress.settled
  have hdistinct := hsettled.complete.distinct
  have hallowed : (Explorer.new spec .standard).spent run.tried = false →
      (Explorer.new spec .standard).allowed (done ++ [⟨o.name, p, s⟩]) =
        (Explorer.new spec .standard).allowed done ++ [⟨o.name, p, s⟩] := fun hleft =>
    Explorer.allowed_concat_of_left (h.tried ▸ hleft) _
  cases Explorer.step_of_tryValue hv with
  | passed hpass => exact .inl ⟨h.pass (hpass.resolve_left hnew) _, rfl⟩
  | refused _ _ happlied =>
      -- a standard operator refuses nothing that the design admits
      have htarget : p ∈ o.targets run.progress.annotated level :=
        Registry.targets_of_bare ho (b := ⟨d, .empty⟩) hsettled.bare level ▸ hp
      obtain ⟨hexact, hrefuses⟩ := Registry.exact_of_mem_standard hdistinct hsettled.rules ho
        htarget
      have hok := (hexact.isOk_apply_iff hdistinct hrefuses s).mpr (h.alike.admits hs)
      rw [happlied] at hok
      cases hok
  | kept _ hleft happlied hrefreshed hc hbetter =>
      have hbetters := h.improvesOn_best hsound happlied hrefreshed (some ⟨o.name, p, s⟩)
      refine .inr ⟨⟨⟨o.name, p, s⟩, ?_, hbetters ▸ hc ▸ hbetter⟩, fun _ => ?_⟩
      · rw [hallowed hleft]
        exact List.mem_append_right _ (List.mem_singleton_self _)
      · rw [← h.best]
        exact hbetter
  | takenBack _ hleft happlied hrefreshed hc hvain hreverted =>
      have hbetters := h.improvesOn_best hsound happlied hrefreshed (some ⟨o.name, p, s⟩)
      obtain ⟨hset, -, -, -⟩ := hsettled.applied happlied hrefreshed
      obtain ⟨back, hback, -, -, halike⟩ := Upkeep.revert_agree hsettled.complete hset
      have hrefreshed : spec.estimator.refresh _ = (_, _) := hrefreshed
      rw [hrefreshed] at hback
      obtain rfl := Except.ok.inj (hback.symm.trans hreverted)
      refine .inl ⟨⟨h.alike.trans halike, h.best, ?_, fun m hm => ?_⟩, rfl⟩
      · rw [hallowed hleft, List.length_append]
        exact congrArg Nat.succ h.tried
      · rw [hallowed hleft] at hm
        rcases List.mem_append.mp hm with hm | hm
        · exact h.vain m hm
        · rw [List.mem_singleton.mp hm]
          exact hbetters ▸ hc ▸ hvain

end LevelRun.Resting

/-! ## 5. All trials of a level -/

/-- Where two designs are alike a standard operator offers the same values. -/
theorem Registry.domain_of_alike {a b : Annotated} (ha : a.design.preorder.Nodup)
    (hc : a.design.check = .ok ()) (ho : o ∈ standard.operators) (hp : p ∈ o.targets a level)
    (h : a.design.Alike b.design) : o.domain b p = o.domain a p := by
  have hb : b.design.preorder.Nodup :=
    (Design.preorder_of_bare h.forest_bare_eq).symm ▸ ha
  have hp' : p ∈ o.targets b level := targets_of_bare ho h.bare_eq level ▸ hp
  obtain ⟨hexact, -⟩ := exact_of_mem_standard ha hc ho hp
  obtain ⟨hexact', -⟩ := exact_of_mem_standard hb (h.check hc) ho hp'
  exact hexact.domain_eq hexact' fun _ => h.admits_iff

namespace LevelRun.Sound

/-- One value of a parameter. -/
theorem tracks_tryValue {state : LevelRun × Setting} (h : state.1.Sound spec d old start)
    (ht : TracksValue (Explorer.new spec .standard) level d current done state)
    (hcurrent : d.setting p = .ok current) (ho : o ∈ Registry.standard.operators)
    (hp : p ∈ o.targets ⟨d, .empty⟩ level) (hs : d.Admits p s) :
    ∃ next, (Explorer.new spec .standard).tryValue level o p state s = .ok next ∧
      next.1.Sound spec d old start ∧
      TracksValue (Explorer.new spec .standard) level d current (done ++ o.trial d p s) next := by
  obtain ⟨next, hv, -, htrial⟩ :=
    @exists_trial spec .standard d state.1 level o p h.progress.settled state.2 s
  refine ⟨next, hv, h.ofTrial htrial, ?_⟩
  unfold Operator.trial
  rcases ht with ⟨hrest, rfl⟩ | hmoved
  · by_cases hs' : s = state.2
    · rw [if_pos (hs' ▸ hcurrent), List.append_nil]
      obtain rfl := Except.ok.inj ((Explorer.tryValue_passed (by simp [hs'])).symm.trans hv)
      exact .inl ⟨hrest, rfl⟩
    · have hne : ¬ d.setting p = .ok s := fun heq =>
        hs' (Except.ok.inj (heq.symm.trans hcurrent))
      rw [if_neg hne]
      exact hrest.tryValue h ho hp hs hs' hv
  · exact .inr (hmoved.tryValue hv _)

/-- **All values of a parameter.** -/
theorem tracks_tryParameter (h : run.Sound spec d old start)
    (ht : run.Tracks (Explorer.new spec .standard) level d done)
    (ho : o ∈ (Explorer.new spec .standard).operators) (hp : p ∈ o.targets ⟨d, .empty⟩ level) :
    ∃ next, (Explorer.new spec .standard).tryParameter level o run p = .ok next ∧
      next.Sound spec d old start ∧
      next.Tracks (Explorer.new spec .standard) level d
        (done ++ (o.domain ⟨d, .empty⟩ p).flatMap (o.trial d p)) := by
  have hmem : o ∈ Registry.standard.operators := Registry.mem_of_mem_ordered ho
  have hsettled := h.progress.settled
  rcases ht with hrest | hmoved
  · have hd := hsettled.nodup
    have hc : d.check = .ok () := hrest.alike.symm.check hsettled.rules
    obtain ⟨hexact, -⟩ := Registry.exact_of_mem_standard (a := ⟨d, .empty⟩) hd hc hmem hp
    obtain ⟨current, hcurrent⟩ := hexact.readable
    have hset : run.progress.annotated.design.setting p = .ok current :=
      (hrest.alike.setting_eq p).trans hcurrent
    have hdomain : o.domain run.progress.annotated p = o.domain ⟨d, .empty⟩ p :=
      Registry.domain_of_alike (a := ⟨d, .empty⟩) hd hc hmem hp hrest.alike
    obtain ⟨next, hnext, hsound, htracks⟩ := Attempt.foldlM_parts (b := (run, current))
      (P := fun (done : List Move) (state : LevelRun × Setting) =>
        state.1.Sound spec d old start ∧
          TracksValue (Explorer.new spec .standard) level d current done state)
      (f := (Explorer.new spec .standard).tryValue level o p)
      (fun _ _ s hs hstate => hstate.1.tracks_tryValue hstate.2 hcurrent hmem hp
        ((hexact.mem_iff s).mp hs))
      ⟨h, .inl ⟨hrest, rfl⟩⟩
    exact ⟨next.1, Explorer.tryParameter_of_ok hset (hdomain ▸ hnext), hsound,
      htracks.imp_left And.left⟩
  · obtain ⟨next, hnext, hsound, hreach⟩ := h.reach_tryParameter .start ho
      ⟨_, hsettled, Registry.targets_of_bare hmem (a := ⟨d, .empty⟩) hsettled.bare.symm level ▸ hp⟩
    exact ⟨next, hnext, hsound, .inr (hmoved.ofReach hreach _)⟩

/-- **All parameters of an operator.** -/
theorem tracks_tryOperator (h : run.Sound spec d old start)
    (ht : run.Tracks (Explorer.new spec .standard) level d done)
    (ho : o ∈ (Explorer.new spec .standard).operators) :
    ∃ next, (Explorer.new spec .standard).tryOperator level run o = .ok next ∧
      next.Sound spec d old start ∧
      next.Tracks (Explorer.new spec .standard) level d (done ++ o.trials level d) := by
  have htargets : o.targets run.progress.annotated level = o.targets ⟨d, .empty⟩ level :=
    Registry.targets_of_bare (Registry.mem_of_mem_ordered ho) (b := ⟨d, .empty⟩)
      h.progress.settled.bare level
  unfold Explorer.tryOperator
  rw [htargets]
  exact Attempt.foldlM_parts (P := fun (done : List Move) (next : LevelRun) =>
    next.Sound spec d old start ∧ next.Tracks (Explorer.new spec .standard) level d done)
    (fun _ _ _ hp hnext => hnext.1.tracks_tryParameter hnext.2 ho hp) ⟨h, ht⟩

/-- The best candidate stays the one that the design as it stands is. -/
theorem still_best (h : first.Sound spec d old start)
    (hreach : Reach (Explorer.new spec registry) d level first run)
    (hbest : first.best.still =
      (Explorer.new spec registry).candidateOf level first.progress.annotated.design) :
    run.best.still =
      (Explorer.new spec registry).candidateOf level run.progress.annotated.design := by
  induction hreach with
  | start => exact hbest
  | @trial run _ _ _ _ _ hreach _ hv ih =>
      have hsound := h.ofReach hreach
      have hdistinct := hsound.progress.settled.complete.distinct
      cases hsound.trial_of_tryValue hv with
      | passed => exact ih
      | refused _ halike => exact ih.trans (Explorer.candidateOf_of_alike hdistinct halike).symm
      | tried ha _ _ _ halike =>
          unfold Explorer.outcome
          dsimp only
          split
          · exact Explorer.still_candidate ha.complete _
          · exact ih.trans (Explorer.candidateOf_of_alike hdistinct halike).symm

end LevelRun.Sound

namespace Progress.Sound

variable {progress next : Progress} {report : LevelReport}

/-- A level that starts has not moved, and the best candidate is the design as it stands. -/
theorem resting_startLevel (h : progress.Sound spec d) (ha : d.Alike progress.annotated.design) :
    ((Explorer.new spec .standard).startLevel level progress).Resting (Explorer.new spec .standard)
        level d [] ∧
      ((Explorer.new spec .standard).startLevel level progress).best.still =
        (Explorer.new spec .standard).candidateOf level
          ((Explorer.new spec .standard).startLevel level progress).progress.annotated.design := by
  have hself : (Explorer.new spec .standard).upkeep.refresh progress.annotated = _ :=
    h.settled.complete.refresh_eq_self
  have hstill : ((Explorer.new spec .standard).candidate level progress.annotated
      (spec.estimator.rootMetrics progress.annotated.design) none).still =
        (Explorer.new spec .standard).candidateOf level progress.annotated.design :=
    Explorer.still_candidate h.settled.complete none
  have hnone : (Explorer.new spec .standard).allowed [] = [] :=
    List.eq_nil_iff_forall_not_mem.mpr fun _ hm =>
      List.not_mem_nil (Explorer.mem_of_mem_allowed hm)
  rw [startLevel_eq hself]
  refine ⟨⟨ha, hstill.trans (Explorer.candidateOf_of_alike h.settled.nodup ha), ?_, ?_⟩, hstill⟩
  · rw [hnone]
    rfl
  · rw [hnone]
    exact nofun

/-- **The search of a level** goes through the trials of the design that it starts with. -/
theorem tracks_searchLevel (h : progress.Sound spec d) (ha : d.Alike progress.annotated.design)
    (hs : (Explorer.new spec .standard).searchLevel level progress = .ok (report, next)) :
    ∃ run : LevelRun, next = run.progress ∧
      run.Tracks (Explorer.new spec .standard) level d
        ((Explorer.new spec .standard).trials level d) ∧
      run.best.still =
        (Explorer.new spec .standard).candidateOf level run.progress.annotated.design := by
  obtain ⟨start, -, -, hfirst⟩ := @Progress.Sound.startLevel spec .standard d progress h level
  obtain ⟨hrest, hstill⟩ := @resting_startLevel spec d level progress h ha
  obtain ⟨run, hrun, hsound, hreach, htracks⟩ := Attempt.foldlM_parts
    (b := (Explorer.new spec .standard).startLevel level progress)
    (P := fun (done : List Move) (run : LevelRun) => run.Sound spec d progress.points start ∧
      LevelRun.Reach (Explorer.new spec .standard) d level
        ((Explorer.new spec .standard).startLevel level progress) run ∧
      run.Tracks (Explorer.new spec .standard) level d done)
    (f := (Explorer.new spec .standard).tryOperator level)
    (fun done run o ho hrun => by
      obtain ⟨next, hnext, hsound, htracks⟩ := hrun.1.tracks_tryOperator hrun.2.2 ho
      obtain ⟨next', hnext', -, hreach⟩ := hrun.1.reach_tryOperator hrun.2.1 ho
      obtain rfl := Except.ok.inj (hnext.symm.trans hnext')
      exact ⟨next, hnext, hsound, hreach, htracks⟩)
    ⟨hfirst, .start, .inl hrest⟩
  have hsearch : (Explorer.new spec .standard).searchLevel level progress =
      .ok ((Explorer.new spec .standard).reportLevel level run, run.progress) :=
    Attempt.bind_eq_ok_iff.mpr ⟨run, hrun, rfl⟩
  obtain ⟨-, hnext⟩ := Prod.mk.inj (Except.ok.inj (hs.symm.trans hsearch))
  exact ⟨run, hnext, htracks, hfirst.still_best hreach hstill⟩

/-- **A level where a design rests** leaves it as it is, but for tiles as long as the loop. -/
theorem alike_of_restsAt (h : progress.Sound spec d) (ha : d.Alike progress.annotated.design)
    (hs : (Explorer.new spec .standard).searchLevel level progress = .ok (report, next))
    (hrest : (Explorer.new spec .standard).RestsAt level d) : d.Alike next.annotated.design := by
  obtain ⟨run, rfl, hresting | hmoved, -⟩ := h.tracks_searchLevel ha hs
  · exact hresting.alike
  · obtain ⟨m, hm, hbetters⟩ := hmoved.found
    rw [hrest m hm] at hbetters
    cases hbetters

/-- **Where the budgets are kept, only such a level does.** -/
theorem restsAt_of_alike (h : progress.Sound spec d) (ha : d.Alike progress.annotated.design)
    (hs : (Explorer.new spec .standard).searchLevel level progress = .ok (report, next))
    (hfits : spec.target.fits (spec.estimator.rootMetrics d) = true)
    (hnext : d.Alike next.annotated.design) : (Explorer.new spec .standard).RestsAt level d := by
  have hd := h.settled.nodup
  obtain ⟨run, rfl, hresting | hmoved, hstill⟩ := h.tracks_searchLevel ha hs
  · exact hresting.vain
  · -- the best candidate is the design, and better than it
    have hfeasible : ((Explorer.new spec .standard).candidateOf level d).feasible = true := by
      rw [Explorer.candidateOf_eq hd]
      exact hfits
    have hbetter := hmoved.better hfeasible
    rw [← Candidate.still_improvesOn, hstill, Explorer.candidateOf_of_alike hd hnext,
      Candidate.not_improvesOn_self hfeasible] at hbetter
    cases hbetter

end Progress.Sound

end Level

end DesignSpace
