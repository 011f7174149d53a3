/-
  Subject:   THE COST OF SINGLE OPERATIONS AND ACCESSES: delays and units by kind and width, cycles
             by clock, and the memory that holds a number of elements.

  * `OpTable`: delay and units of operations, with entries that replace the usual ones;
  * `CostModel`: clock, table, measured cycles and ports of one target;
  * `CostModel.opCycles`, `opUnits`, `accessCycles`: the cost of one operation or access;
  * `storageElements`: banks of memory for an array.
-/
import DesignSpace.Target.Basic

namespace DesignSpace

/-! ## 1. Delays and units -/

/-- The delay of an operation in nanoseconds, and the units that it takes. -/
structure OpCost where
  delay : Float
  units : Nat

/-- The widths for which costs are known. -/
def widths : List Nat := [8, 16, 32, 64]

/-- The least known width that holds a number of bits, or the largest one. -/
def widthFor (bits : Nat) : Nat := (widths.find? fun w => decide (bits ≤ w)).getD 64

/-- The usual cost of an operation of a known width. -/
def usualCost (kind : OpKind) (width : Nat) : OpCost :=
  let wide := decide (32 < width)
  match kind with
  | .add | .sub => ⟨if wide then 2.5 else 1.5, 1⟩
  | .mul =>
    if width = 8 ∨ width = 16 then ⟨3.0, 1⟩
    else if width = 32 then ⟨8.0, 3⟩
    else ⟨16.0, 10⟩
  | .div | .rem => ⟨ofCount width * 1.1, 1⟩
  | .shift | .logic | .select => ⟨0.5, 0⟩
  | .cmp => ⟨1.0, 0⟩
  | .cast => ⟨0.0, 0⟩
  | .fadd | .fsub => ⟨if wide then 20.0 else 14.0, if wide then 3 else 2⟩
  | .fmul => ⟨if wide then 18.0 else 12.0, if wide then 11 else 3⟩
  | .fdiv => ⟨if wide then 120.0 else 55.0, 1⟩
  | .fsqrt => ⟨if wide then 110.0 else 50.0, 1⟩
  | .fcmp => ⟨5.0, 0⟩

/-- Costs that replace the usual ones, the latest first. -/
structure OpTable where
  entries : List (OpKind × Nat × OpCost) := []

namespace OpTable

/-- The cost of an operation on words of some width. -/
def cost (t : OpTable) (kind : OpKind) (bits : Nat) : OpCost :=
  match t.entries.find? fun e => e.1 = kind && e.2.1 = widthFor bits with
  | some e => e.2.2
  | none => usualCost kind (widthFor bits)

/-- The table with one cost replaced. -/
def set (t : OpTable) (kind : OpKind) (bits : Nat) (c : OpCost) : OpTable :=
  ⟨(kind, widthFor bits, c) :: t.entries⟩

end OpTable

/-! ## 2. The model of a target -/

/-- What the cost of a region depends on besides the design. -/
structure CostModel where
  clockPeriod : Float
  table : OpTable
  overrides : List (String × Nat)
  portsPerBank : Nat
  externalPorts : Nat

namespace CostModel

/-- The model of a target; a clock period that is not positive and a memory without ports are
    replaced. -/
def ofTarget (t : Target) (table : OpTable) : CostModel where
  clockPeriod := if 0.0 < t.clockPeriod then t.clockPeriod else defaultClockPeriod
  table := table
  overrides := t.opLatency
  portsPerBank := max t.portsPerBank 1
  externalPorts := max t.externalPorts 1

/-- The cycles of an operation: as measured, or as many as cover its delay. An operation with a
    delay takes a cycle at least. -/
def opCycles (m : CostModel) (o : Operation) : Nat :=
  match Keyed.get? m.overrides o.kind.name with
  | some n => n
  | none =>
    let delay := (m.table.cost o.kind o.bits).delay
    if delay ≤ 0.0 then 0 else max (ceilCount (delay / m.clockPeriod)) 1

/-- The units of an operation. -/
def opUnits (m : CostModel) (o : Operation) : Nat := (m.table.cost o.kind o.bits).units

/-- The name under which the cycles of an access are given. -/
def accessKey : AccessKind → (onChip : Bool) → String
  | .read, true => "load"
  | .write, true => "store"
  | .read, false => "ext-load"
  | .write, false => "ext-store"

/-- The usual cycles of an access. -/
def usualAccessCycles : AccessKind → (onChip : Bool) → Nat
  | .read, true => 2
  | .write, true => 1
  | .read, false => 8
  | .write, false => 4

/-- The cycles of an access: as measured, or the usual ones. -/
def accessCycles (m : CostModel) (kind : AccessKind) (onChip : Bool) : Nat :=
  (Keyed.get? m.overrides (accessKey kind onChip)).getD (usualAccessCycles kind onChip)

end CostModel

/-! ## 3. Memory -/

/-- The bits of one bank of memory. -/
def bankBits : Nat := 18432

/-- The banks that hold a number of elements of some width, split evenly into parts that share no
    bank. -/
def storageElements (elements bits partition : Nat) : Nat :=
  let parts := max partition 1
  let partBits := Count.mul (Count.ceilDiv elements parts) bits
  Count.mul parts (max (Count.ceilDiv partBits bankBits) 1)

/-- The banks of an array. -/
def ArrayDecl.storageElements (a : ArrayDecl) : Nat :=
  DesignSpace.storageElements a.elements a.bits a.partition

end DesignSpace
