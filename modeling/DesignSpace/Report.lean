/-
  Subject:   REPORTS OF ESTIMATES, as values and as texts.

  * `Cycles.value`, `Resources.value`, `Metrics.value`, `Violation.value`, `Estimate.members`;
  * `Report`, `Annotated.report`: a row for every region that has an estimate, in the order of the
    tree.
-/
import DesignSpace.Estimate
import DesignSpace.Json.Value

namespace DesignSpace

open Json (Value)

/-! ## 1. Values -/

/-- A number of cycles as a value. -/
def Cycles.value : Cycles → Value
  | known n => .object [("known", .ofNat n)]
  | unknown => .text "unknown"

/-- Counts of hardware as a value. -/
def Resources.value (r : Resources) : Value :=
  .object [("compute_units", .ofNat r.computeUnits), ("memory_ports", .ofNat r.memoryPorts),
    ("storage_elements", .ofNat r.storageElements), ("control_units", .ofNat r.controlUnits)]

/-- Metrics as a value. -/
def Metrics.value (m : Metrics) : Value :=
  .object [("latency", m.latency.value), ("interval", m.interval.value),
    ("resources", m.resources.value)]

/-- A violation as a value. -/
def Violation.value : Violation → Value
  | resource k used budget =>
    .object [("type", .text "resource"), ("kind", .text k.name), ("used", .ofNat used),
      ("budget", .ofNat budget)]
  | latency cycles budget =>
    .object [("type", .text "latency"), ("cycles", .ofNat cycles), ("budget", .ofNat budget)]

/-- An estimate as members of an object; without violations there is no member for them. -/
def Estimate.members (e : Estimate) : List (String × Value) :=
  ("metrics", e.metrics.value) ::
    if e.violations.isEmpty then []
    else [("violations", .list (e.violations.map Violation.value))]

/-- A summary as a value. -/
def Summary.value (s : Summary) : Value :=
  .object [("module", .text s.design), ("root", .ofNat s.root), ("metrics", s.metrics.value),
    ("regions", .ofNat s.regions), ("violating_regions", .list (s.violating.map Value.ofNat))]

/-! ## 2. Reports -/

/-- What a report says of one region. -/
structure ReportRow where
  id : RegionId
  kind : String
  label : String
  depth : Nat
  opCount : Nat
  estimate : Estimate
deriving DecidableEq, Repr

/-- The estimates of a design, region by region. -/
structure Report where
  design : String
  rows : List ReportRow
deriving DecidableEq, Repr

/-- The report of the estimates that are there. -/
def Annotated.report (a : Annotated) : Report where
  design := a.design.name
  rows := a.design.forest.nests.filterMap fun n =>
    (a.table.get? n.region.id).map fun e =>
      { id := n.region.id
        kind := n.region.kind.name
        label := n.region.label
        depth := a.design.depth n.region.id
        opCount := n.opCount
        estimate := e }

/-- A row as a value. -/
def ReportRow.value (r : ReportRow) : Value :=
  .object ([("id", .ofNat r.id), ("kind", .text r.kind), ("label", .text r.label),
    ("depth", .ofNat r.depth), ("op_count", .ofNat r.opCount)] ++ r.estimate.members)

/-- A report as a value. -/
def Report.value (r : Report) : Value :=
  .object [("module", .text r.design), ("rows", .list (r.rows.map ReportRow.value))]

end DesignSpace
