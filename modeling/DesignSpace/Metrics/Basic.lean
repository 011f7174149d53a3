/-
  Subject:   METRICS of a region: how many cycles it takes, how often it can start, and what
             hardware it needs.

  * `Cycles`: a number of cycles, or none that is known;
  * `Resources`: four counts of hardware, shared in turns (`sequential`) or not (`concurrent`);
  * `Metrics`: latency, interval and resources;
  * `Violation`: a budget that is passed.
-/
import DesignSpace.Count
import DesignSpace.Text.Blank

namespace DesignSpace

/-! ## 1. Cycles -/

/-- A number of cycles. What is unknown stays unknown in every sum, maximum and multiple. -/
inductive Cycles where
  | known (n : Nat)
  | unknown
deriving DecidableEq, Repr

namespace Cycles

/-- The number, if it is known. -/
def toOption : Cycles → Option Nat
  | known n => some n
  | unknown => none

/-- One after the other. -/
def add : Cycles → Cycles → Cycles
  | known a, known b => known (Count.add a b)
  | _, _ => unknown

/-- The longer of the two. -/
def max : Cycles → Cycles → Cycles
  | known a, known b => known (Max.max a b)
  | _, _ => unknown

/-- Several times in a row. -/
def scale (c : Cycles) (factor : Nat) : Cycles :=
  match c with
  | known a => known (Count.mul a factor)
  | unknown => unknown

/-- A number of cycles in texts. -/
def text : Cycles → String
  | known n => toString n
  | unknown => "unknown"

theorem add_eq_unknown_iff (a b : Cycles) : a.add b = unknown ↔ a = unknown ∨ b = unknown := by
  cases a <;> cases b <;> simp [add]

theorem max_eq_unknown_iff (a b : Cycles) : a.max b = unknown ↔ a = unknown ∨ b = unknown := by
  cases a <;> cases b <;> simp [max]

end Cycles

/-! ## 2. Resources -/

/-- The kinds of hardware: units that compute, ports of memories, banks of memory on the chip, and
    controllers. -/
inductive ResourceKind where
  | computeUnit
  | memoryPort
  | storageElement
  | controlUnit
deriving DecidableEq, Repr

namespace ResourceKind

/-- All kinds, in the order in which they are reported. -/
def all : List ResourceKind := [computeUnit, memoryPort, storageElement, controlUnit]

theorem mem_all (k : ResourceKind) : k ∈ all := by cases k <;> decide

/-- The name of a kind. -/
def name : ResourceKind → String
  | computeUnit => "compute-unit"
  | memoryPort => "memory-port"
  | storageElement => "storage-element"
  | controlUnit => "control-unit"

/-- The kind with a name; blanks around the name do not count. -/
def ofName? (s : String) : Option ResourceKind :=
  all.find? fun k => k.name = Text.trim s

/-- What is said of a name that is none. -/
def unknownMessage (s : String) : String := "unknown resource kind '" ++ s ++ "'"

end ResourceKind

/-- A count for every kind of hardware. -/
structure Resources where
  computeUnits : Nat := 0
  memoryPorts : Nat := 0
  storageElements : Nat := 0
  controlUnits : Nat := 0
deriving DecidableEq, Repr

namespace Resources

/-- The count of a kind. -/
def get (r : Resources) : ResourceKind → Nat
  | .computeUnit => r.computeUnits
  | .memoryPort => r.memoryPorts
  | .storageElement => r.storageElements
  | .controlUnit => r.controlUnits

/-- The counts with that of one kind replaced. -/
def set (r : Resources) (k : ResourceKind) (n : Nat) : Resources :=
  match k with
  | .computeUnit => { r with computeUnits := n }
  | .memoryPort => { r with memoryPorts := n }
  | .storageElement => { r with storageElements := n }
  | .controlUnit => { r with controlUnits := n }

theorem get_set (r : Resources) (k j : ResourceKind) (n : Nat) :
    (r.set k n).get j = if k = j then n else r.get j := by
  cases k <;> cases j <;> rfl

/-- What two regions need that never run at the same time: they share all but their memory. -/
def sequential (a b : Resources) : Resources where
  computeUnits := max a.computeUnits b.computeUnits
  memoryPorts := max a.memoryPorts b.memoryPorts
  storageElements := Count.add a.storageElements b.storageElements
  controlUnits := max a.controlUnits b.controlUnits

/-- What two regions need that run at the same time: they share nothing. -/
def concurrent (a b : Resources) : Resources where
  computeUnits := Count.add a.computeUnits b.computeUnits
  memoryPorts := Count.add a.memoryPorts b.memoryPorts
  storageElements := Count.add a.storageElements b.storageElements
  controlUnits := Count.add a.controlUnits b.controlUnits

/-- The sum over all kinds. -/
def total (r : Resources) : Nat := Count.sum (ResourceKind.all.map r.get)

/-- No count is larger. -/
def fitsWithin (a b : Resources) : Bool := ResourceKind.all.all fun k => decide (a.get k ≤ b.get k)

/-- No count is larger, and the counts differ. -/
def strictlyBelow (a b : Resources) : Bool := a.fitsWithin b && a != b

theorem fitsWithin_iff (a b : Resources) : a.fitsWithin b = true ↔ ∀ k, a.get k ≤ b.get k := by
  simp only [fitsWithin, List.all_eq_true, decide_eq_true_eq]
  exact ⟨fun h k => h k (ResourceKind.mem_all k), fun h k _ => h k⟩

end Resources

/-! ## 3. Metrics -/

/-- The metrics of a region: the cycles of one run, the cycles between the starts of two runs, and
    the hardware. -/
structure Metrics where
  latency : Cycles
  interval : Cycles
  resources : Resources
deriving DecidableEq, Repr

/-- The metrics of nothing: no time and no hardware. -/
def Metrics.empty : Metrics := ⟨.known 0, .known 0, {}⟩

/-- A budget that is passed. -/
inductive Violation where
  | resource (kind : ResourceKind) (used budget : Nat)
  | latency (cycles budget : Nat)
deriving DecidableEq, Repr

/-- A violation in texts. -/
def Violation.text : Violation → String
  | resource k used budget =>
    k.name ++ " usage " ++ toString used ++ " exceeds budget " ++ toString budget
  | latency cycles budget =>
    "latency " ++ toString cycles ++ " exceeds budget " ++ toString budget

/-- What is known of a region: its metrics and the budgets it passes. -/
structure Estimate where
  metrics : Metrics
  violations : List Violation := []
deriving DecidableEq, Repr

end DesignSpace
