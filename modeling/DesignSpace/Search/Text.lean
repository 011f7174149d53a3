/-
  Subject:   REPORTS OF SEARCHES as values.

  * `Parameter.value`, `Setting.value`, `Move.value`: a parameter, a value of it, both;
  * `Point.value`, `LevelReport.value`, `SearchReport.value`: what a search recorded and found.
-/
import DesignSpace.Report
import DesignSpace.Search.Explore

namespace DesignSpace

open Json (Value)

namespace Parameter

/-- The name of the directive that a parameter is. -/
def directive : Parameter → String
  | pipeline _ => "pipeline"
  | unroll _ => "unroll"
  | tile _ => "tile"
  | partition _ => "partition"
  | dataflow _ => "dataflow"

/-- The region or array that a parameter is about, as a value. -/
def subject : Parameter → Value
  | pipeline id | unroll id | tile id | dataflow id => .ofNat id
  | partition array => .text array

/-- A parameter as a value. -/
def value (p : Parameter) : Value :=
  .object [("param", .text p.directive), ("target", p.subject)]

end Parameter

/-- A setting as a value. -/
def Setting.value : Setting → Value
  | flag on => .bool on
  | factor n => .ofNat n

/-- A move as a value. -/
def Move.value (m : Move) : Value :=
  .object [("operator", .text m.operator), ("target", m.parameter.value),
    ("value", m.setting.value)]

/-- A point as a value; without a move there is no member for it. -/
def Point.value (p : Point) : Value :=
  .object (("level", .ofNat p.level) ::
    ((match p.move with
      | some m => [("param", m.value)]
      | none => []) ++
    [("latency", p.latency.value), ("resources", p.resources.value),
      ("feasible", .bool p.feasible)]))

/-- The report of a level as a value. -/
def LevelReport.value (r : LevelReport) : Value :=
  .object [("region", .ofNat r.region), ("label", .text r.label),
    ("params", .list (r.moves.map Move.value)), ("metrics", r.metrics.value),
    ("evaluations", .ofNat r.evaluations), ("feasible", .bool r.feasible)]

/-- The report of a search as a value. -/
def SearchReport.value (r : SearchReport) : Value :=
  .object [("module", .text r.design), ("strategy", .text r.strategy.name),
    ("levels", .list (r.levels.map LevelReport.value)), ("metrics", r.metrics.value),
    ("infeasible", .bool r.infeasible), ("evaluations", .ofNat r.evaluations),
    ("backtracks", .ofNat r.backtracks), ("design_points", .list (r.points.map Point.value)),
    ("frontier", .object [("points", .list (r.frontier.map Point.value))])]

end DesignSpace
