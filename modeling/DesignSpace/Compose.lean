/-
  Subject:   THE METRICS OF SEVERAL PARTS, from those of each.

  * `compose`: parts one after the other, or overlapping as stages;
  * `composeStages`: parts one after the other within a stage, and stages that overlap.
-/
import DesignSpace.Metrics.Basic
import DesignSpace.Region
import DesignSpace.Stages

namespace DesignSpace

/-- The cycles by which every further stage starts later. -/
def stageSkew : Nat := 2

/-- The metrics of parts under a composition. One after the other, latencies add up and hardware is
    shared; as stages, the slowest sets the pace and nothing is shared. -/
def compose (kind : Composition) (parts : List Metrics) : Metrics :=
  match parts with
  | [] => .empty
  | first :: rest =>
    match kind with
    | .sequential =>
      let latency := rest.foldl (fun c m => c.add m.latency) first.latency
      { latency := latency
        interval := latency
        resources := rest.foldl (fun r m => r.sequential m.resources) first.resources }
    | .dataflow =>
      let slowest := rest.foldl (fun c m => c.max m.latency) first.latency
      { latency := slowest.add (.known (Count.mul stageSkew rest.length))
        interval := slowest
        resources := rest.foldl (fun r m => r.concurrent m.resources) first.resources }

/-- The metrics of parts that are grouped into stages. -/
def composeStages (parts : List Metrics) (stages : List Span) : Metrics :=
  if stages.length ≤ 1 then compose .sequential parts
  else compose .dataflow (stages.map fun s => compose .sequential (s.slice parts))

end DesignSpace
