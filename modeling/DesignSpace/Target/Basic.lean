/-
  Subject:   TARGETS: the chip a design is built for, the budgets it has to keep, and how the
             search for better directives is to go about it.

  * `Target`: clock, budgets, measured latencies, ports of memories;
  * `Target.violations`, `fits`, `meetsLatency`, `overshoot`: metrics against the budgets;
  * `SearchOptions`, `TargetSpec`: a target with the options of a search;
  * `Target.check`, `TargetSpec.check`: the rules for targets.
-/
import DesignSpace.Region
import DesignSpace.Metrics.Basic
import DesignSpace.Decimal.Shortest
import DesignSpace.Keyed
import DesignSpace.Design.Check

namespace DesignSpace

/-! ## 1. Budgets -/

/-- A budget for every kind of hardware; a kind without one is not limited. -/
structure Budgets where
  computeUnits : Option Nat := none
  memoryPorts : Option Nat := none
  storageElements : Option Nat := none
  controlUnits : Option Nat := none
deriving DecidableEq, Repr

namespace Budgets

/-- The budget of a kind. -/
def get (b : Budgets) : ResourceKind → Option Nat
  | .computeUnit => b.computeUnits
  | .memoryPort => b.memoryPorts
  | .storageElement => b.storageElements
  | .controlUnit => b.controlUnits

/-- The budgets with one more, in place of that of the same kind. -/
def set (b : Budgets) (k : ResourceKind) (n : Nat) : Budgets :=
  match k with
  | .computeUnit => { b with computeUnits := some n }
  | .memoryPort => { b with memoryPorts := some n }
  | .storageElement => { b with storageElements := some n }
  | .controlUnit => { b with controlUnits := some n }

/-- The budgets that are set, by kind. -/
def toList (b : Budgets) : List (ResourceKind × Nat) :=
  ResourceKind.all.filterMap fun k => (b.get k).map fun n => (k, n)

theorem mem_toList (b : Budgets) (k : ResourceKind) (n : Nat) :
    (k, n) ∈ b.toList ↔ b.get k = some n := by
  simp only [toList, List.mem_filterMap, Option.map_eq_some_iff, Prod.mk.injEq]
  constructor
  · rintro ⟨j, -, m, hm, rfl, rfl⟩
    exact hm
  · exact fun h => ⟨k, ResourceKind.mem_all k, n, h, rfl, rfl⟩

end Budgets

/-! ## 2. Targets -/

/-- A chip: the length of a clock cycle in nanoseconds, budgets for hardware and latency, cycle
    counts that were measured, and the ports of a bank of memory and of the memory outside. -/
structure Target where
  clockPeriod : Float := 10.0
  budgets : Budgets := {}
  latencyBudget : Option Nat := none
  opLatency : List (String × Nat) := []
  portsPerBank : Nat := 2
  externalPorts : Nat := 1

/-- The clock period that counts where none is given. -/
def defaultClockPeriod : Float := 10.0

/-- The names under which cycle counts of accesses are given. -/
def accessKeys : List String := ["load", "store", "ext-load", "ext-store"]

/-- Whether a cycle count can be given under a name: that of an operation or of an access. -/
def isLatencyKey (name : String) : Bool :=
  (OpKind.ofName? name).isSome || accessKeys.contains name

namespace Target

/-- The budgets that metrics pass: hardware by kind, then latency where it is known. -/
def violations (t : Target) (m : Metrics) : List Violation :=
  (t.budgets.toList.filterMap fun (k, budget) =>
    let used := m.resources.get k
    if budget < used then some (.resource k used budget) else none) ++
  match t.latencyBudget, m.latency with
  | some budget, .known cycles =>
    if budget < cycles then [.latency cycles budget] else []
  | _, _ => []

/-- The hardware is within every budget. -/
def fits (t : Target) (m : Metrics) : Bool :=
  t.budgets.toList.all fun (k, budget) => decide (m.resources.get k ≤ budget)

/-- Whether the latency is within its budget; none if either is not known. -/
def meetsLatency (t : Target) (m : Metrics) : Option Bool :=
  match t.latencyBudget, m.latency with
  | some budget, .known cycles => some (decide (cycles ≤ budget))
  | _, _ => none

/-- By how much a count passes a budget, relative to the budget where that is not zero. -/
def excess (used budget : Nat) : Float :=
  if used ≤ budget then 0.0
  else if budget = 0 then ofCount used
  else ofCount (used - budget) / ofCount budget

/-- By how much the hardware passes its budgets, summed over the kinds. The sum of no terms is the
    neutral element of addition, `-0.0`. -/
def overshoot (t : Target) (m : Metrics) : Float :=
  t.budgets.toList.foldl (fun sum (k, budget) => sum + excess (m.resources.get k) budget) (-0.0)

theorem fits_iff (t : Target) (m : Metrics) :
    t.fits m = true ↔ ∀ k n, t.budgets.get k = some n → m.resources.get k ≤ n := by
  simp only [fits, List.all_eq_true, decide_eq_true_eq, Prod.forall, Budgets.mem_toList]

end Target

/-! ## 3. Search options -/

/-- The order in which the levels of a design are searched. -/
inductive Strategy where
  | bottomUp
  | topDown
deriving DecidableEq, Repr

namespace Strategy

/-- The name of a strategy. -/
def name : Strategy → String
  | bottomUp => "bottom-up"
  | topDown => "top-down"

/-- The strategy with a name. -/
def ofName? (s : String) : Option Strategy := [bottomUp, topDown].find? fun x => x.name = s

end Strategy

/-- How a search goes about it: order of the levels, operators that come first, candidates that one
    search of a level may try (no limit if none), and how often it may go back to a level. -/
structure SearchOptions where
  strategy : Strategy := .bottomUp
  priority : List String := ["pipeline", "unroll", "tile", "partition", "dataflow"]
  candidateBudget : Option Nat := none
  maxBacktracks : Nat := 8
deriving DecidableEq, Repr

/-- A target with the options of a search for it. -/
structure TargetSpec where
  target : Target := {}
  options : SearchOptions := {}

/-! ## 4. Rules -/

/-- What is wrong with a value of a target. -/
inductive TargetFlaw where
  | notCount (shown : String)
  | notPositive
  | clockText (text : String)
  | clockUnit (unit : String)
  | clockValue (shown : String)
  | noPorts
  | strategy (name : String)
  | repeatedOperator (name : String)
deriving DecidableEq, Repr

/-- What can be wrong with a target. -/
inductive TargetError where
  | negative (field shown : String)
  | invalid (field : String) (flaw : TargetFlaw)
  | unknownResource (name : String)
  | unknownOperation (name : String)
deriving DecidableEq, Repr

/-- The text of a flaw. -/
def TargetFlaw.message : TargetFlaw → String
  | notCount v => "expected a non-negative integer, got " ++ v
  | notPositive => "must be at least 1"
  | clockText s => "cannot parse '" ++ s ++ "'"
  | clockUnit u => "unknown unit '" ++ u ++ "'"
  | clockValue v => "expected number or string, got " ++ v
  | noPorts => "port counts must be at least 1"
  | strategy s => "expected 'bottom-up' or 'top-down', got '" ++ s ++ "'"
  | repeatedOperator s => "operator '" ++ s ++ "' listed twice"

/-- The text of an error. -/
def TargetError.message : TargetError → String
  | negative field v => "Field '" ++ field ++ "' must not be negative (got " ++ v ++ ")"
  | invalid field flaw => "Field '" ++ field ++ "' is invalid: " ++ flaw.message
  | unknownResource s => "Unknown resource kind '" ++ s ++ "'"
  | unknownOperation s => "Unknown operation '" ++ s ++ "' in op_latency"

/-- A clock period is a positive number of nanoseconds. -/
def isPeriod (x : Float) : Bool := x.isFinite && !decide (x ≤ 0.0)

namespace Target

/-- The rules for a target: a clock period, ports, and cycle counts under names that are known. -/
def check (t : Target) : Except TargetError Unit := do
  demand (isPeriod t.clockPeriod) (.negative "clock_period" (plainFloat t.clockPeriod))
  demand (t.portsPerBank != 0 && t.externalPorts != 0) (.invalid "memory ports" .noPorts)
  match t.opLatency.find? fun e => !isLatencyKey e.1 with
  | some e => throw (.unknownOperation e.1)
  | none => return ()

end Target

/-- The rules for a target with its options: a budget of candidates is not zero. -/
def TargetSpec.check (s : TargetSpec) : Except TargetError Unit := do
  s.target.check
  demand (s.options.candidateBudget != some 0) (.invalid "dse.candidate_budget" .notPositive)

end DesignSpace
