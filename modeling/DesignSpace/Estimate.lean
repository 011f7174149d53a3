/-
  Subject:   ESTIMATES OF WHOLE DESIGNS, from the parts up. A region whose estimate is in the table
             is not looked at again.

  * `Estimator`: a cost model, and the target whose budgets are watched;
  * `Estimator.combine`: the metrics of a region from those of its parts;
  * `Estimator.settle`: the estimates of a forest, missing ones put into the table;
  * `Annotated`: a design with a table of estimates;
  * `Estimator.run`, `refresh`, `refreshRegion`: all estimates, the missing ones, and those that
    depend on a region.
-/
import DesignSpace.Compose
import DesignSpace.Cost.Loop
import DesignSpace.Metrics.Table

namespace DesignSpace

/-- What estimates depend on besides the design. -/
structure Estimator where
  model : CostModel
  target : Option Target

namespace Estimator

/-- The estimator for a target, or for the usual one without budgets. -/
def new (target : Option Target) (table : OpTable) : Estimator where
  model := CostModel.ofTarget (target.getD {}) table
  target := target

/-- The budgets that metrics pass. -/
def violations (e : Estimator) (m : Metrics) : List Violation :=
  match e.target with
  | some t => t.violations m
  | none => []

/-! ## 1. One region -/

/-- The stages of a region whose parts have these metrics. They follow the latencies where the
    region asks for it and all latencies are known. -/
def stagesOf (n : Nest) (parts : List Metrics) : List Span :=
  if n.region.balances then
    match parts.mapM fun m => m.latency.toOption with
    | some latencies => balancedStages latencies n.stages
    | none => evenStages parts.length n.stages
  else evenStages parts.length n.stages

/-- The metrics of a function or a dataflow node: its stages, and the arrays that live as long. -/
def scopeMetrics (d : Design) (n : Nest) (parts : List Metrics) (controllers : Nat) : Metrics :=
  let stages := stagesOf n parts
  let m := composeStages parts stages
  { m with
    resources := { m.resources with
      storageElements := Count.add m.resources.storageElements (d.scopedStorage n stages)
      controlUnits := Count.add m.resources.controlUnits controllers } }

/-- The metrics of a region in a context, from those of its parts. A loop that is pipelined or has
    nothing but blocks below it is priced with a flat body. -/
def combine (e : Estimator) (d : Design) (c : Context) (n : Nest) (parts : List Metrics) :
    Metrics :=
  match n.region.kind with
  | .block b => e.model.blockMetrics d.arrays c b
  | .loop l =>
    if l.directives.pipeline || n.isInnermostLoop then e.model.flatLoopMetrics d.arrays c n
    else CostModel.outerLoopMetrics d.arrays c n (composeStages parts (stagesOf n parts))
  | .func _ => scopeMetrics d n parts 1
  | .dataflow => scopeMetrics d n parts 0

/-! ## 2. Forests -/

/-- The metrics of the regions at the top of a forest, and the table with what was missing of the
    forest. An entry that is there is taken as it is, and nothing below it is looked at. -/
def settle (e : Estimator) (d : Design) (c : Context) : Forest → Table → List Metrics × Table
  | .nil, t => ([], t)
  | .cons r below after, t =>
    let n : Nest := ⟨r, below⟩
    match t.metrics? r.id with
    | some m =>
      let (ms, t) := settle e d c after t
      (m :: ms, t)
    | none =>
      let (parts, t) := settle e d (c.enter d.arrays n) below t
      let m := e.combine d c n parts
      let (ms, t) := settle e d c after (t.insert r.id ⟨m, e.violations m⟩)
      (m :: ms, t)

/-- The metrics of one region, and the table with what was missing of it. A region that is not in
    the design has the metrics of nothing. -/
def aggregate (e : Estimator) (d : Design) (id : RegionId) (t : Table) : Metrics × Table :=
  match t.metrics? id, d.find? id with
  | some m, _ => (m, t)
  | none, none => (.empty, t)
  | none, some n =>
    let (ms, t) := e.settle d (d.context id) n.toForest t
    (ms.headD .empty, t)

end Estimator

/-! ## 3. Annotated designs -/

/-- A design with the estimates that are known of it. -/
structure Annotated where
  design : Design
  table : Table := .empty
deriving DecidableEq, Repr

/-- A design of which nothing is known yet. -/
instance : Coe Design Annotated where
  coe d := ⟨d, .empty⟩

/-- The nest of a region. -/
def Annotated.find? (a : Annotated) (id : RegionId) : Option Nest := a.design.find? id

/-- What estimates say of a design as a whole. -/
structure Summary where
  design : String
  root : RegionId
  metrics : Metrics
  regions : Nat
  violating : List RegionId
deriving DecidableEq, Repr

/-- The summary of the estimates that are there. -/
def Annotated.summary (a : Annotated) : Summary where
  design := a.design.name
  root := a.design.root.id
  metrics := (a.table.metrics? a.design.root.id).getD .empty
  regions := a.table.size
  violating := (a.table.entries.filter fun e => !e.2.violations.isEmpty).map Prod.fst

namespace Estimator

/-- The metrics of the root, and the design with all estimates that were missing. -/
def refresh (e : Estimator) (a : Annotated) : Metrics × Annotated :=
  let (m, t) := e.aggregate a.design a.design.root.id a.table
  (m, { a with table := t })

/-- The same after the estimates of a region, of all regions below it and of all around it are
    dropped. -/
def refreshRegion (e : Estimator) (a : Annotated) (id : RegionId) : Metrics × Annotated :=
  let d := a.design
  e.refresh { a with table := a.table.invalidate (d.subtree id ++ d.ancestors id) }

/-- All estimates of a design that keeps the rules, with no regard to those that are there. -/
def run (e : Estimator) (a : Annotated) : Except Defect (Summary × Annotated) := do
  a.design.check
  let a := (e.refresh { a with table := .empty }).2
  return (a.summary, a)

end Estimator

end DesignSpace
