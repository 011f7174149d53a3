/-
  Subject:   THE SEARCH OF ONE LEVEL: the parameters of a region are tried one after the other, and
             each value that makes the design better stays.

  * `Upkeep`: how estimates are kept up to date while values are tried and given up; `incremental`
    estimates anew only what a change touches, `fromScratch` everything;
  * `Explorer`: a target with its options, the operators, and the upkeep;
  * `Halt`: a search that cannot go on;
  * `Explorer.tryValue`, `tryParameter`, `tryOperator`: one value, all values of a parameter, all
    parameters of an operator;
  * `Explorer.searchLevel`: a level searched, with the report of it.
-/
import DesignSpace.Operator
import DesignSpace.Search.Frontier

namespace DesignSpace

/-! ## 1. Upkeep of the estimates -/

/-- How a search keeps its estimates up to date. -/
structure Upkeep where
  /-- The metrics of the root, and the design with all estimates in place. -/
  refresh : Annotated → Metrics × Annotated
  /-- The design `after` a change and its estimates, with the change taken back; `before` is what
      it was changed from. -/
  revert : (before after : Annotated) → Change → Except ChangeError Annotated

namespace Upkeep

/-- Missing estimates are made; those that a change drops are put back with the change. -/
def incremental (e : Estimator) : Upkeep where
  refresh := e.refresh
  revert before after change := do
    let kept := before.table.snapshot (before.design.stale change.parameter)
    let back ← after.undo change
    return { back with table := back.table.restore kept }

/-- All estimates are made anew, each time. -/
def fromScratch (e : Estimator) : Upkeep where
  refresh a := e.refresh { a with table := .empty }
  revert _ after change := do
    let back ← after.undo change
    return (e.refresh { back with table := .empty }).2

end Upkeep

/-! ## 2. Explorers -/

/-- What a search works with. -/
structure Explorer where
  spec : TargetSpec
  registry : Registry
  upkeep : Upkeep

/-- The estimator of a target specification. -/
def TargetSpec.estimator (s : TargetSpec) : Estimator := .new (some s.target) {}

namespace Explorer

/-- The explorer that estimates only what changes. -/
def new (spec : TargetSpec) (registry : Registry) : Explorer where
  spec := spec
  registry := registry
  upkeep := .incremental spec.estimator

/-- The operators in the order of the options. -/
def operators (x : Explorer) : List Operator := x.registry.ordered x.spec.options.priority

/-- The regions that are searched: those with an operator, deepest first or last, and of equal
    depth in the order of the tree. -/
def levels (x : Explorer) (a : Annotated) : List RegionId :=
  let d := a.design
  let found := d.preorder.filter (x.registry.appliesAnywhere a)
  match x.spec.options.strategy with
  | .bottomUp => arranged (fun i j => decide (d.depth j ≤ d.depth i)) found
  | .topDown => arranged (fun i j => decide (d.depth i ≤ d.depth j)) found

end Explorer

/-! ## 3. Values tried one by one -/

/-- What a search did so far: the design as it stands, how many configurations were tried, and the
    points recorded. -/
structure Progress where
  annotated : Annotated
  evaluations : Nat := 0
  points : List Point := []

/-- A search that cannot go on: why a change could not be taken back, and the design with it. -/
structure Halt where
  error : ChangeError
  annotated : Annotated

/-- A level on the way: the progress, how many configurations were tried at the level, and the best
    of them, which is the design as it stands. -/
structure LevelRun where
  progress : Progress
  tried : Nat
  best : Candidate

/-- What was decided at a level: the values of all its parameters, its metrics, how many
    configurations were tried, and whether the design then fits. -/
structure LevelReport where
  region : RegionId
  label : String
  moves : List Move
  metrics : Metrics
  evaluations : Nat
  feasible : Bool
deriving DecidableEq, Repr

namespace Candidate

/-- The point of a candidate at a level. -/
def point (c : Candidate) (level : RegionId) : Point where
  level := level
  move := c.move
  latency := c.root.latency
  resources := c.root.resources
  feasible := c.feasible

end Candidate

namespace Explorer

/-- The candidate that a design with up-to-date estimates is. -/
def candidate (x : Explorer) (level : RegionId) (a : Annotated) (root : Metrics)
    (move : Option Move) : Candidate where
  move := move
  levelLatency := ((a.table.metrics? level).map Metrics.latency).getD .unknown
  root := root
  feasible := x.spec.target.fits root
  overshoot := x.spec.target.overshoot root

/-- Whether a level has had all the configurations that it may try. -/
def spent (x : Explorer) (tried : Nat) : Bool :=
  match x.spec.options.candidateBudget with
  | some budget => decide (budget ≤ tried)
  | none => false

/-- One value of a parameter tried, where `current` is the value that it has. A value that makes
    the design better becomes the current one; any other is taken back. -/
def tryValue (x : Explorer) (level : RegionId) (o : Operator) (p : Parameter) :
    LevelRun × Setting → Setting → Except Halt (LevelRun × Setting)
  | (run, current), s =>
    if s = current || x.spent run.tried then .ok (run, current)
    else
      let before := run.progress.annotated
      let evaluations := run.progress.evaluations + 1
      let tried := run.tried + 1
      match o.apply before p s with
      | (.error _, a) =>
        .ok (⟨{ run.progress with annotated := a, evaluations }, tried, run.best⟩, current)
      | (.ok change, a) =>
        let (root, a) := x.upkeep.refresh a
        let c := x.candidate level a root (some ⟨o.name, p, s⟩)
        let points := run.progress.points ++ [c.point level]
        if c.improvesOn run.best then .ok (⟨⟨a, evaluations, points⟩, tried, c⟩, s)
        else do
          let back ← (x.upkeep.revert before a change).mapError (⟨·, a⟩)
          return (⟨⟨back, evaluations, points⟩, tried, run.best⟩, current)

/-- All values of a parameter, in the order of its domain. The domain is that of the design as it
    stands when the parameter's turn comes. A parameter without a value is passed over. -/
def tryParameter (x : Explorer) (level : RegionId) (o : Operator) (run : LevelRun)
    (p : Parameter) : Except Halt LevelRun :=
  let a := run.progress.annotated
  match a.design.setting p with
  | .error _ => .ok run
  | .ok current => do
    let (run, _) ← (o.domain a p).foldlM (x.tryValue level o p) (run, current)
    return run

/-- All parameters that an operator has at a level. -/
def tryOperator (x : Explorer) (level : RegionId) (run : LevelRun) (o : Operator) :
    Except Halt LevelRun :=
  (o.targets run.progress.annotated level).foldlM (x.tryParameter level o) run

/-- The values of all parameters at a level. -/
def assignment (x : Explorer) (a : Annotated) (level : RegionId) : List Move :=
  x.operators.flatMap fun o =>
    (o.targets a level).filterMap fun p =>
      match a.design.setting p with
      | .ok s => some ⟨o.name, p, s⟩
      | .error _ => none

/-- The label of a region, or its number if there is no such region. -/
def levelLabel (d : Design) (level : RegionId) : String :=
  match d.find? level with
  | some n => n.region.label
  | none => regionName level

/-- A level whose search starts: the configuration as it stands is the first one. -/
def startLevel (x : Explorer) (level : RegionId) (progress : Progress) : LevelRun :=
  let (root, a) := x.upkeep.refresh progress.annotated
  let c := x.candidate level a root none
  ⟨⟨a, progress.evaluations + 1, progress.points ++ [c.point level]⟩, 1, c⟩

/-- The report of a level whose search is over. -/
def reportLevel (x : Explorer) (level : RegionId) (run : LevelRun) : LevelReport :=
  let a := run.progress.annotated
  { region := level
    label := levelLabel a.design level
    moves := x.assignment a level
    metrics := (a.table.metrics? level).getD .empty
    evaluations := run.tried
    feasible := run.best.feasible }

/-- A level searched: the best configuration found stays, and a report tells of it. -/
def searchLevel (x : Explorer) (level : RegionId) (progress : Progress) :
    Except Halt (LevelReport × Progress) := do
  let run ← x.operators.foldlM (x.tryOperator level) (x.startLevel level progress)
  return (x.reportLevel level run, run.progress)

end Explorer

end DesignSpace
