/-
  Subject:   STAGES: the parts of a region grouped into consecutive spans.

  * `Span`, `Span.slice`: positions from a start up to an end, and the items there;
  * `evenStages`: spans of nearly equal size;
  * `balancedStages`: spans whose largest sum is as small as possible, found by dynamic
    programming over the number of spans.
-/
import DesignSpace.Count

namespace DesignSpace

/-- Positions from `start` up to, and without, `stop`. -/
structure Span where
  start : Nat
  stop : Nat
deriving DecidableEq, Repr

namespace Span

/-- The number of positions. -/
def size (s : Span) : Nat := s.stop - s.start

/-- The items of a list at the positions. -/
def slice {α : Type} (s : Span) (xs : List α) : List α := (xs.drop s.start).take s.size

/-- Consecutive spans of given sizes. -/
def consecutive : (start : Nat) → (sizes : List Nat) → List Span
  | _, [] => []
  | start, n :: sizes => ⟨start, start + n⟩ :: consecutive (start + n) sizes

end Span

/-- The number of spans that `n` items are grouped into when `k` are asked for. -/
def stageCount (n k : Nat) : Nat := Count.clamp 1 (max n 1) k

/-! ## 1. Even spans -/

/-- Spans of nearly equal size, the larger ones first. -/
def evenStages (n k : Nat) : List Span :=
  let k := stageCount n k
  Span.consecutive 0 (List.replicate (n % k) (n / k + 1) ++ List.replicate (k - n % k) (n / k))

example : evenStages 5 2 = [⟨0, 3⟩, ⟨3, 5⟩] := by decide

example : evenStages 2 5 = [⟨0, 1⟩, ⟨1, 2⟩] := by decide

/-! ## 2. Balanced spans -/

/-- The best way to group the first items into some number of spans: the largest sum of a span,
    and where the last span starts. -/
structure Cut where
  slowest : Nat
  start : Nat
deriving DecidableEq, Repr

/-- The sums of the first `0`, `1`, … items. -/
def prefixSums (xs : List Nat) : List Nat := xs.scanl Count.add 0

/-- The best last span up to a position with the sum `total` before it. `rows` holds, for every
    start below that position from `start` on, the best cut before it and the sum before it. Of
    equally good starts the first one counts. -/
def bestCut (total : Nat) : (start : Nat) → List (Option Cut × Nat) → Option Cut → Option Cut
  | _, [], best => best
  | start, (none, _) :: rows, best => bestCut total (start + 1) rows best
  | start, (some before, sum) :: rows, best =>
    let slowest := max before.slowest (total - sum)
    let better := match best with
      | some b => decide (slowest < b.slowest)
      | none => true
    bestCut total (start + 1) rows (if better then some ⟨slowest, start⟩ else best)

/-- The best cuts of the first `0`, `1`, … items into one span more than in the row before. -/
def nextRow (sums : List Nat) (row : List (Option Cut)) : List (Option Cut) :=
  sums.mapIdx fun j total => bestCut total 0 ((row.zip sums).take j) none

/-- The best cuts into no span: only nothing can be cut so. -/
def firstRow (n : Nat) : List (Option Cut) := some ⟨0, 0⟩ :: List.replicate n none

/-- The rows for `k`, …, `1` spans, in front of those in `rows`, of which the first is the row
    before. -/
def cutRows (sums : List Nat) : (k : Nat) → List (Option Cut) → List (List (Option Cut)) →
    List (List (Option Cut))
  | 0, _, rows => rows
  | k + 1, row, rows =>
    let row := nextRow sums row
    cutRows sums k row (row :: rows)

/-- The spans up to a position, the last one first, each from the row for its number of spans. -/
def traceCuts : (rows : List (List (Option Cut))) → (stop : Nat) → List Span
  | [], _ => []
  | row :: rows, stop =>
    let start := ((row[stop]?.join).map Cut.start).getD 0
    ⟨start, stop⟩ :: traceCuts rows start

/-- Consecutive spans whose largest sum is as small as possible. Each span starts as early as it
    can; no items make one empty span. -/
def balancedStages (xs : List Nat) (k : Nat) : List Span :=
  let n := xs.length
  if n = 0 then [⟨0, 0⟩]
  else (traceCuts (cutRows (prefixSums xs) (stageCount n k) (firstRow n) []) n).reverse

example : balancedStages [10, 1, 1, 1] 2 = [⟨0, 1⟩, ⟨1, 4⟩] := by decide

example : balancedStages [4, 4, 4, 4] 2 = [⟨0, 2⟩, ⟨2, 4⟩] := by decide

end DesignSpace
