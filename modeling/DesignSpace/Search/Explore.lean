/-
  Subject:   THE SEARCH OF A DESIGN: level after level, going back to earlier levels where the
             hardware does not fit.

  * `SearchError`: what can stop a search;
  * `Explorer.backtrack`: earlier levels searched again until a level fits;
  * `Phase`, `Ending`: how far a search came, and how it ended;
  * `Explorer.search`, `Explorer.explore`: the whole search, and its report.
-/
import DesignSpace.Search.Level

namespace DesignSpace

/-- What can stop a search. -/
inductive SearchError where
  | target (error : TargetError)
  | design (defect : Defect)
  | unknownOperator (name : String)
  | revert (error : ChangeError)
deriving DecidableEq, Repr

/-- The text of an error. -/
def SearchError.message : SearchError → String
  | target e => "invalid target spec: " ++ e.message
  | design d => "invalid module: " ++ d.message
  | unknownOperator s => "operator '" ++ s ++ "' in the priority list is not registered"
  | revert e => "failed to revert a rejected candidate: " ++ e.message

/-- How far a search came. -/
inductive Phase where
  | initializing
  | committing
  | done
deriving DecidableEq, Repr

namespace Phase

/-- The name of a phase. -/
def name : Phase → String
  | initializing => "initializing"
  | committing => "committing"
  | done => "done"

/-- How far a search came that has an outcome. -/
def ofOutcome {α : Type} : Except SearchError α → Phase
  | .ok _ => done
  | .error (.revert _) => committing
  | .error _ => initializing

end Phase

/-- What a search found: the decisions level by level, the metrics of the root in the end, whether
    a budget is still passed, how much was tried, and all points recorded. -/
structure SearchReport where
  design : String
  strategy : Strategy
  levels : List LevelReport
  metrics : Metrics
  infeasible : Bool
  evaluations : Nat
  backtracks : Nat
  points : List Point
deriving DecidableEq, Repr

/-- The points worth keeping. -/
def SearchReport.frontier (r : SearchReport) : List Point := DesignSpace.frontier r.points

/-- How a search ended: with a report or an error, with the design as it then stands, and how far it
    had come. -/
structure Ending where
  outcome : Except SearchError SearchReport
  annotated : Annotated
  phase : Phase

/-- The report with the design, or the error alone. -/
def Ending.result : Ending → Except SearchError (SearchReport × Annotated)
  | ⟨.ok report, a, _⟩ => .ok (report, a)
  | ⟨.error e, _, _⟩ => .error e

/-! ## 1. Going back -/

/-- A search between two levels: the progress, how often it went back, the reports so far, and the
    places of those levels that it may go back to, the latest first. -/
structure Visit where
  progress : Progress
  backtracks : Nat := 0
  reports : List LevelReport := []
  pending : List Nat := []

namespace Explorer

/-- A level that does not fit, helped by earlier ones: the latest one that can be gone back to is
    searched again. If the design then fits, the level itself is searched again; if not, the level
    gone back to is given up and the one before it has its turn. It is gone back at most `fuel`
    times. -/
def backtrack (x : Explorer) (level : RegionId) :
    (fuel : Nat) → Visit → LevelReport → Except Halt (Visit × LevelReport)
  | 0, v, current => .ok (v, current)
  | fuel + 1, v, current =>
    if current.feasible then .ok (v, current)
    else
      match v.pending with
      | [] => .ok (v, current)
      | place :: pending =>
        match v.reports[place]? with
        | none => .ok (v, current)
        | some earlier => do
          let (again, progress) ← x.searchLevel earlier.region v.progress
          let v : Visit := ⟨progress, v.backtracks + 1, v.reports.set place again, pending⟩
          if again.feasible then
            let (current, progress) ← x.searchLevel level v.progress
            backtrack x level fuel { v with progress, pending := place :: pending } current
          else backtrack x level fuel v current

/-- One more level searched, with what help earlier ones can give. -/
def visitLevel (x : Explorer) (v : Visit) (level : RegionId) : Except Halt Visit := do
  let (report, progress) ← x.searchLevel level v.progress
  let left := x.spec.options.maxBacktracks - v.backtracks
  let (v, report) ← x.backtrack level left { v with progress } report
  return { v with reports := v.reports ++ [report], pending := v.reports.length :: v.pending }

/-! ## 2. The whole search -/

/-- Operators that the options name have to be there. -/
def checkPriority (x : Explorer) : Except SearchError Unit :=
  match x.spec.options.priority.find? fun s => (x.registry.get? s).isNone with
  | some s => .error (.unknownOperator s)
  | none => .ok ()

/-- What is asked for before a search looks at the design. -/
def checkInput (x : Explorer) : Except SearchError Unit := do
  x.spec.check.mapError .target
  x.checkPriority

/-- Whether metrics pass a budget, for hardware or for latency. -/
def misses (x : Explorer) (m : Metrics) : Bool :=
  !x.spec.target.fits m || x.spec.target.meetsLatency m == some false

/-- A design searched: all its levels in turn, from estimates made anew. A search that is stopped
    leaves the design as it then stands. -/
def search (x : Explorer) (a : Annotated) : Ending :=
  match x.checkInput with
  | .error e => ⟨.error e, a, .initializing⟩
  | .ok () =>
    let e := x.spec.estimator
    match e.run a with
    | .error defect => ⟨.error (.design defect), a, .initializing⟩
    | .ok (_, start) =>
      match (x.levels start).foldlM x.visitLevel { progress := ⟨start, 0, []⟩ } with
      | .error halt => ⟨.error (.revert halt.error), halt.annotated, .committing⟩
      | .ok v =>
        match e.run v.progress.annotated with
        | .error defect => ⟨.error (.design defect), v.progress.annotated, .done⟩
        | .ok (summary, final) =>
          let report : SearchReport :=
            { design := final.design.name
              strategy := x.spec.options.strategy
              levels := v.reports
              metrics := summary.metrics
              infeasible := x.misses summary.metrics
              evaluations := v.progress.evaluations
              backtracks := v.backtracks
              points := v.progress.points }
          ⟨.ok report, final, .done⟩

/-- What a search finds, with the design that it leaves. -/
def explore (x : Explorer) (a : Annotated) : Except SearchError (SearchReport × Annotated) :=
  (x.search a).result

end Explorer

/-- A design searched with the standard operators. -/
def Annotated.explore (a : Annotated) (spec : TargetSpec) :
    Except SearchError (SearchReport × Annotated) :=
  (Explorer.new spec .standard).explore a

end DesignSpace
