/-
  Subject:   GUARDED ESTIMATES. A run over a whole design, with a guard in front of everything that
             has no result everywhere. It traps for no design that is accepted, whatever was set
             since, and whatever the target.

  * `Guarded.check_eq`: the rules never trap, not even where they are broken;
  * `Design.Estimable`: what an estimate of a region relies on;
  * `Guarded.combine_eq`, `settle_eq`: **one region**, and a forest of them;
  * `Design.estimable_of_check`: what the rules give;
  * `Guarded.run_session`: **no estimate traps**, after any settings.
-/
import DesignSpace.Proofs.Design.Traversal
import DesignSpace.Proofs.Design.Writable
import DesignSpace.Proofs.Guarded.Cost
import DesignSpace.Proofs.Search.Upfront

namespace DesignSpace

namespace Guarded

/-! ## 1. Rules -/

/-- The rules for an array by itself. -/
def checkArray (a : ArrayDecl) : Guarded (Except ArrayFlaw Unit) :=
  if (!a.shape.isEmpty && a.shape.all fun n => decide (0 < n)) = false then .ok (.error .shape)
  else if a.bits = 0 then .ok (.error .width)
  else if a.partition = 0 then .ok (.error .partition)
  else do
    let rest ← mod a.lastExtent a.partition
    return demand (rest == 0) .partition

/-- The rules for the directives of a loop. -/
def checkLoop (l : Loop) (innerStatic : Bool) : Guarded (Except DirectiveFlaw Unit) :=
  let u := l.directives.unroll
  if u = 0 then .ok (.error .noUnroll)
  else if l.directives.pipeline && !innerStatic then .ok (.error .unboundedNest)
  else
    match l.trip.bounded with
    | some n =>
      let t := l.directives.tile.getD n
      if t = 0 then .ok (.error (.tile t n))
      else do
        if (← mod n t) ≠ 0 then return .error (.tile t n)
        else return demand ((← mod t u) == 0) (.unroll u t)
    | none => .ok (demand (u ≤ 1 && l.directives.tile.isNone) .unbounded)

/-- The rules for the arrays of a table, where the names in `before` are taken. -/
def checkArrays (d : Design) :
    (before : List String) → List ArrayDecl → Guarded (Except Defect Unit)
  | _, [] => .ok (.ok ())
  | before, a :: as =>
    if before.contains a.name then .ok (.error (.repeatedArray a.name))
    else do
      match ← checkArray a with
      | .error flaw => return .error (.array a.name flaw)
      | .ok () =>
        match d.checkScope a with
        | .error flaw => return .error (.scope a.name (d.scopeOf a) flaw)
        | .ok () => checkArrays d (a.name :: before) as

/-- The rules for one region. -/
def checkNest (d : Design) (n : Nest) : Guarded (Except Defect Unit) :=
  match n.region.kind with
  | .loop l => do return (← checkLoop l n.innerLoopsStatic).mapError (.directive n.region.id)
  | _ => .ok (d.checkNest n)

/-- The rules for some regions, one after the other. -/
def checkNests (d : Design) : List Nest → Guarded (Except Defect Unit)
  | [] => .ok (.ok ())
  | n :: ns => do
    match ← checkNest d n with
    | .error defect => return .error defect
    | .ok () => checkNests d ns

/-- The first defect of a design. -/
def check (d : Design) : Guarded (Except Defect Unit) := do
  match ← checkArrays d [] d.arrays with
  | .error defect => return .error defect
  | .ok () => checkNests d d.ascending

theorem checkArray_eq (a : ArrayDecl) : checkArray a = .ok a.check := by
  unfold checkArray ArrayDecl.check
  cases !a.shape.isEmpty && a.shape.all fun n => decide (0 < n) with
  | false => rfl
  | true =>
      by_cases hbits : a.bits = 0
      · rw [hbits]
        rfl
      · by_cases hpartition : a.partition = 0
        · rw [hpartition]
          simp [demand, hbits, Nat.pos_of_ne_zero]
          rfl
        · rw [mod_eq hpartition]
          simp [demand, hbits, hpartition, Nat.pos_of_ne_zero]
          rfl

theorem checkLoop_eq (l : Loop) (innerStatic : Bool) :
    checkLoop l innerStatic = .ok (l.check innerStatic) := by
  unfold checkLoop Loop.check
  have hpipeline : (!l.directives.pipeline || innerStatic) =
      !(l.directives.pipeline && !innerStatic) := by
    cases l.directives.pipeline <;> cases innerStatic <;> rfl
  rw [hpipeline]
  by_cases hu : l.directives.unroll = 0
  · simp [demand, hu]
    rfl
  cases l.directives.pipeline && !innerStatic with
  | true =>
      simp [demand, hu]
      rfl
  | false =>
      cases l.trip.bounded with
      | none =>
          simp [demand, hu]
          rfl
      | some n =>
          by_cases ht : l.directives.tile.getD n = 0
          · simp [demand, hu, ht]
            rfl
          · by_cases hmod : n % l.directives.tile.getD n = 0
            · simp [demand, hu, ht, hmod, mod_eq]
              rfl
            · simp [demand, hu, ht, hmod, mod_eq]
              rfl

theorem checkArrays_eq (d : Design) (before : List String) (as : List ArrayDecl) :
    checkArrays d before as = .ok (d.checkArrays before as) := by
  induction as generalizing before with
  | nil => rfl
  | cons a as ih =>
      unfold checkArrays Design.checkArrays
      rw [checkArray_eq, ok_bind]
      cases before.contains a.name with
      | true => rfl
      | false =>
          cases a.check with
          | error flaw => rfl
          | ok _ =>
              cases d.checkScope a with
              | error flaw => rfl
              | ok _ => exact ih _

theorem checkNest_eq (d : Design) (n : Nest) : checkNest d n = .ok (d.checkNest n) := by
  unfold checkNest Design.checkNest
  cases n.region.kind with
  | loop l =>
      dsimp only
      rw [checkLoop_eq]
      rfl
  | block _ => rfl
  | func _ => rfl
  | dataflow => rfl

theorem checkNests_eq (d : Design) (ns : List Nest) :
    checkNests d ns = .ok (ns.forM d.checkNest) := by
  induction ns with
  | nil => rfl
  | cons n ns ih =>
      unfold checkNests
      rw [checkNest_eq, ok_bind, ih]
      show _ = Except.ok (d.checkNest n >>= fun _ => ns.forM d.checkNest)
      cases d.checkNest n <;> rfl

/-- **The rules do not trap**, for any design: each remainder is asked for after the number by which
    it is taken. -/
theorem check_eq (d : Design) : check d = .ok d.check := by
  unfold check Design.check
  rw [checkArrays_eq, ok_bind]
  cases d.checkArrays [] d.arrays with
  | error defect => rfl
  | ok _ => exact checkNests_eq d d.ascending

/-! ## 2. One region -/

/-- The stages into which a region groups its parts. -/
def stages (n : Nest) : Guarded Nat :=
  match n.region.kind with
  | .func f => clamp 1 (max n.children.length 1) f.directives.dataflow
  | _ => .ok n.stages

theorem stages_eq (n : Nest) : stages n = .ok n.stages := by
  unfold stages Nest.stages Region.stages
  cases n.region.kind with
  | func f => exact clamp_eq (Nat.le_max_right _ _) _
  | block _ => rfl
  | loop _ => rfl
  | dataflow => rfl

/-- The stages of a region whose parts have these metrics. -/
def stagesOf (n : Nest) (parts : List Metrics) : Guarded (List Span) := do
  let k ← stages n
  if n.region.balances then
    match parts.mapM fun m => m.latency.toOption with
    | some latencies => balancedStages latencies k
    | none => evenStages parts.length k
  else evenStages parts.length k

end Guarded

/-- **What an estimate of a region relies on**: tiles that are not empty, and no more parts than
    can be counted. -/
structure Nest.Estimable (n : Nest) : Prop where
  tileable : ∀ l, n.region.loop? = some l → l.Tileable
  countable : n.children.length + 1 ≤ Count.limit

namespace Guarded

variable {e : Estimator} {d : Design} {c : Context} {n : Nest} {parts : List Metrics}

theorem stagesOf_eq (h : parts.length + 1 ≤ Count.limit) :
    stagesOf n parts = .ok (Estimator.stagesOf n parts) := by
  have heven := evenStages_eq (n := parts.length) (by omega) n.stages
  unfold stagesOf Estimator.stagesOf
  rw [stages_eq, ok_bind]
  split
  · cases hl : parts.mapM fun m => m.latency.toOption with
    | none => exact heven
    | some latencies =>
        have hlength := length_latencies (mapM_latency_eq_some_iff.mp hl)
        exact balancedStages_eq (by omega) _
  · exact heven

theorem within_stagesOf (n : Nest) (parts : List Metrics) :
    Within (Estimator.stagesOf n parts) parts.length := by
  unfold Estimator.stagesOf
  split
  · cases hl : parts.mapM fun m => m.latency.toOption with
    | none => exact within_evenStages _ _
    | some latencies =>
        rw [length_latencies (mapM_latency_eq_some_iff.mp hl)]
        exact within_balancedStages latencies _
  · exact within_evenStages _ _

/-- The metrics of a function or a dataflow node. -/
def scopeMetrics (d : Design) (n : Nest) (parts : List Metrics) (controllers : Nat) :
    Guarded Metrics := do
  let stages ← stagesOf n parts
  let m ← composeStages parts stages
  let storage ← scopedStorage d n stages
  return { m with
    resources := { m.resources with
      storageElements := Count.add m.resources.storageElements storage
      controlUnits := Count.add m.resources.controlUnits controllers } }

/-- The metrics of a region in a context, from those of its parts. -/
def combine (e : Estimator) (d : Design) (c : Context) (n : Nest) (parts : List Metrics) :
    Guarded Metrics :=
  match n.region.kind with
  | .block b => blockMetrics e.model d.arrays c b
  | .loop l =>
    if l.directives.pipeline || n.isInnermostLoop then flatLoopMetrics e.model d.arrays c n
    else do
      let stages ← stagesOf n parts
      let body ← composeStages parts stages
      outerLoopMetrics d.arrays c n body
  | .func _ => scopeMetrics d n parts 1
  | .dataflow => scopeMetrics d n parts 0

theorem scopeMetrics_eq (h : n.Estimable) (hparts : parts.length = n.children.length)
    (controllers : Nat) :
    scopeMetrics d n parts controllers = .ok (Estimator.scopeMetrics d n parts controllers) := by
  have hstages := stagesOf_eq (n := n) (hparts ▸ h.countable)
  have hwithin := within_stagesOf n parts
  unfold scopeMetrics
  rw [hstages, ok_bind, composeStages_eq hwithin, ok_bind, scopedStorage_eq d (hparts ▸ hwithin),
    ok_bind]
  rfl

/-- **One region does not trap**, whatever the metrics of its parts are. -/
theorem combine_eq (h : n.Estimable) (hparts : parts.length = n.children.length) :
    combine e d c n parts = .ok (e.combine d c n parts) := by
  unfold combine Estimator.combine
  cases n.region.kind with
  | block b => exact blockMetrics_eq e.model d.arrays c b
  | loop l =>
      dsimp only
      split
      · exact flatLoopMetrics_eq e.model d.arrays c h.tileable
      · rw [stagesOf_eq (hparts ▸ h.countable), ok_bind,
          composeStages_eq (within_stagesOf n parts), ok_bind]
        exact outerLoopMetrics_eq d.arrays c _ h.tileable
  | func _ => exact scopeMetrics_eq h hparts 1
  | dataflow => exact scopeMetrics_eq h hparts 0

/-! ## 3. Forests -/

/-- The metrics of the regions at the top of a forest, and the table with what was missing. -/
def settle (e : Estimator) (d : Design) (c : Context) :
    Forest → Table → Guarded (List Metrics × Table)
  | .nil, t => .ok ([], t)
  | .cons r below after, t =>
    let n : Nest := ⟨r, below⟩
    match t.metrics? r.id with
    | some m => do
      let (ms, t) ← settle e d c after t
      return (m :: ms, t)
    | none => do
      let (parts, t) ← settle e d (c.enter d.arrays n) below t
      let m ← combine e d c n parts
      let (ms, t) ← settle e d c after (t.insert r.id ⟨m, e.violations m⟩)
      return (m :: ms, t)

/-- The metrics of one region, and the table with what was missing of it. -/
def aggregate (e : Estimator) (d : Design) (id : RegionId) (t : Table) :
    Guarded (Metrics × Table) :=
  match t.metrics? id, d.find? id with
  | some m, _ => .ok (m, t)
  | none, none => .ok (.empty, t)
  | none, some n => do
    let (ms, t) ← settle e d (d.context id) n.toForest t
    return (ms.headD .empty, t)

/-- The metrics of the root, and the design with all estimates that were missing. -/
def refresh (e : Estimator) (a : Annotated) : Guarded (Metrics × Annotated) := do
  let (m, t) ← aggregate e a.design a.design.root.id a.table
  return (m, { a with table := t })

/-- All estimates of a design that keeps the rules, with no regard to those that are there. -/
def run (e : Estimator) (a : Annotated) : Guarded (Except Defect (Summary × Annotated)) := do
  match ← check a.design with
  | .error defect => return .error defect
  | .ok () =>
    let (_, a) ← refresh e { a with table := .empty }
    return .ok (a.summary, a)

/-- A forest has metrics for each region at its top. -/
theorem length_settle (e : Estimator) (d : Design) (c : Context) (f : Forest) (t : Table) :
    (e.settle d c f t).1.length = f.roots.length := by
  induction f generalizing c t with
  | nil => rfl
  | cons r below after _ iha =>
      unfold Estimator.settle
      cases t.metrics? r.id with
      | some m => exact congrArg Nat.succ (iha c t)
      | none => exact congrArg Nat.succ (iha c _)

/-- **A forest does not trap**, whatever is in the table. -/
theorem settle_eq {f : Forest} (h : ∀ n ∈ f.nests, n.Estimable) (t : Table) :
    settle e d c f t = .ok (e.settle d c f t) := by
  -- the context and the table go with the walk, so they stay general
  induction f generalizing c t with
  | nil => rfl
  | cons r below after ihb iha =>
      obtain ⟨hn, hrest⟩ := List.forall_mem_cons.mp h
      have hbelow := fun c => ihb (c := c) fun n hn => hrest n (List.mem_append_left _ hn)
      have hafter := fun c => iha (c := c) fun n hn => hrest n (List.mem_append_right _ hn)
      unfold settle Estimator.settle
      cases t.metrics? r.id with
      | some m =>
          dsimp only
          rw [hafter, ok_bind]
          rfl
      | none =>
          dsimp only
          rw [hbelow, ok_bind, combine_eq hn (length_settle e d _ below t), ok_bind, hafter,
            ok_bind]
          rfl

/-! ## 4. Designs -/

theorem aggregate_eq (h : ∀ n ∈ d.forest.nests, n.Estimable) (id : RegionId) (t : Table) :
    aggregate e d id t = .ok (e.aggregate d id t) := by
  unfold aggregate Estimator.aggregate
  cases t.metrics? id with
  | some m => rfl
  | none =>
      cases hn : d.find? id with
      | none => rfl
      | some n =>
          dsimp only
          rw [settle_eq fun m hm => h m (Forest.nests_nest_subset (Forest.find?_mem hn).1 m hm),
            ok_bind]
          rfl

theorem refresh_eq {a : Annotated} (h : ∀ n ∈ a.design.forest.nests, n.Estimable) :
    refresh e a = .ok (e.refresh a) := by
  unfold refresh
  rw [aggregate_eq h, ok_bind]
  rfl

/-- **A run does not trap** where no region does. -/
theorem run_eq {a : Annotated} (h : ∀ n ∈ a.design.forest.nests, n.Estimable) :
    run e a = .ok (e.run a) := by
  unfold run Estimator.run
  rw [check_eq, ok_bind]
  cases a.design.check with
  | error defect => rfl
  | ok _ =>
      dsimp only
      rw [refresh_eq (a := { a with table := .empty }) h, ok_bind]
      rfl

end Guarded

/-! ## 5. What the rules give -/

namespace Design

variable {d : Design}

/-- **What the rules give**: a design that keeps them, with no more regions than can be counted, can
    be estimated. -/
theorem estimable_of_check (hd : d.preorder.Nodup) (hc : d.check = .ok ())
    (hlength : d.preorder.length ≤ Count.limit) : ∀ n ∈ d.forest.nests, n.Estimable := by
  intro n hn
  constructor
  case tileable =>
    intro l hl tile htile
    obtain ⟨trip, hb, rfl⟩ := Option.map_eq_some_iff.mp htile
    have hcheck := (check_eq_ok_iff.mp hc).2.2 n hn
    have hrules := Loop.check_eq_ok_iff.mp
      ((checkNest_loop_iff (Region.loop?_eq_some_iff.mp hl)).mp hcheck)
    rw [hb] at hrules
    exact hrules.2.2.1
  case countable => exact Nat.le_trans (length_children_lt hd hn) hlength

end Design

/-! ## 6. Sessions -/

namespace Guarded

/-- **No estimate traps.** Take the design of a listing whose records can be counted, with any
    table, and set parameters to any values, with or without success, with refreshes anywhere
    between. Then an estimate of the whole design, by any cost model and for any target, ends with
    a result, and its guarded twin has the same result; and so has the guarded twin of a refresh. -/
theorem run_session {l : Listing} {d : Design} (hd : l.design = .ok d)
    (hlength : l.records.length ≤ Count.limit) (e₀ e : Estimator) (t : Table)
    {actions : List Action} (hactions : ∀ action ∈ actions, action.isUndo = false) :
    let a := (Session.run e₀ ⟨⟨d, t⟩, []⟩ actions).annotated
    (∃ summary last, e.run a = .ok (summary, last) ∧ run e a = .ok (.ok (summary, last))) ∧
      refresh e a = .ok (e.refresh a) := by
  intro a
  obtain ⟨htree, hcheck⟩ := Listing.tree_of_design hd
  have hstart := Listing.nodup_of_design hd
  obtain ⟨hdistinct, hkeeps⟩ := @Session.check_run e₀ ⟨⟨d, t⟩, []⟩ actions hstart hcheck hactions
  have hregions : a.design.preorder = d.preorder :=
    (Session.keeps_run (P := fun x => x.annotated.design.preorder = d.preorder)
      (fun hx h _ _ => (Session.preorder_step hx _).trans h) hstart rfl hactions).2
  have hcount : a.design.preorder.length = l.records.length := by
    rw [hregions, (Listing.perm_preorder htree).length_eq, List.length_map]
  have hestimable := Design.estimable_of_check hdistinct hkeeps (hcount ▸ hlength)
  have hrun : e.run a = .ok _ := Estimator.run_eq_ok_iff.mpr ⟨hkeeps, rfl, rfl⟩
  exact ⟨⟨_, _, hrun, (run_eq hestimable).trans (congrArg Except.ok hrun)⟩, refresh_eq hestimable⟩

/-- A tile set and unrolling refused, for a target without ports. -/
theorem run_session_smoothing : Smoothing.listing.design = .ok Smoothing.design ∧
    Smoothing.listing.records.length ≤ Count.limit ∧
    let a := (Session.run (Estimator.new none {}) ⟨⟨Smoothing.design, .empty⟩, []⟩
      [.set (.tile 1) (.factor 4), .refresh, .set (.unroll 1) (.factor 16)]).annotated
    ∃ summary last,
      run (Estimator.new (some { portsPerBank := 0, externalPorts := 0 }) {}) a =
        .ok (.ok (summary, last)) := by
  have hlength : Smoothing.listing.records.length ≤ Count.limit := by decide
  have hactions : ∀ action ∈ [Action.set (.tile 1) (.factor 4), .refresh,
      .set (.unroll 1) (.factor 16)], action.isUndo = false := by decide
  obtain ⟨⟨summary, last, -, hrun⟩, -⟩ := run_session Smoothing.design_listing hlength
    (Estimator.new none {}) (Estimator.new (some { portsPerBank := 0, externalPorts := 0 }) {})
    .empty hactions
  exact ⟨Smoothing.design_listing, hlength, summary, last, hrun⟩

end Guarded

end DesignSpace
