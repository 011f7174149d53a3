/-
  Subject:   CANDIDATES AND DESIGN POINTS: what a search learns from one configuration, and which
             of them are worth keeping.

  * `Move`: one parameter with a value, as the change of one operator;
  * `Candidate.improvesOn`: when a candidate takes the place of the best one so far;
  * `Point`: what is recorded of a candidate;
  * `Point.dominates`, `frontier`: the points of known latency that no other point dominates;
  * `mem_frontierFrom_iff`: which points those are.
-/
import DesignSpace.Parameter

namespace DesignSpace

/-- A value of a parameter, and the name of the operator that offers it. -/
structure Move where
  operator : String
  parameter : Parameter
  setting : Setting
deriving DecidableEq, Repr

/-! ## 1. Candidates -/

/-- A configuration that was evaluated at a level: the move that leads to it, the latency of the
    level, the metrics of the root, whether the hardware is within the budgets, and by how much it
    passes them. -/
structure Candidate where
  move : Option Move := none
  levelLatency : Cycles
  root : Metrics
  feasible : Bool
  overshoot : Float

namespace Candidate

/-- Known latencies come before unknown ones, lower before higher, and of equal latencies the one
    with less hardware. -/
def fasterThan (c best : Candidate) : Bool :=
  let leaner := c.root.resources.strictlyBelow best.root.resources
  match c.levelLatency, best.levelLatency with
  | .known a, .known b => decide (a < b) || (decide (a = b) && leaner)
  | .known _, .unknown => true
  | .unknown, .known _ => false
  | .unknown, .unknown => leaner

/-- What fits comes before what does not. Of two candidates that fit the faster one is better; of
    two that do not, the one nearer to the budgets, and then the faster one. -/
def improvesOn (c best : Candidate) : Bool :=
  match c.feasible, best.feasible with
  | true, false => true
  | false, true => false
  | true, true => c.fasterThan best
  | false, false =>
    if c.overshoot < best.overshoot then true
    else if c.overshoot > best.overshoot then false
    else c.fasterThan best

end Candidate

/-! ## 2. Points -/

/-- The record of a candidate: the level it was tried at, its move, and what the root came to. -/
structure Point where
  level : RegionId
  move : Option Move := none
  latency : Cycles
  resources : Resources
  feasible : Bool
deriving DecidableEq, Repr

namespace Point

/-- Not slower and not larger, and either faster or different in hardware. -/
def dominates (p q : Point) : Bool :=
  match p.latency, q.latency with
  | .known a, .known b =>
    decide (a ≤ b) && p.resources.fitsWithin q.resources &&
      (decide (a < b) || p.resources != q.resources)
  | _, _ => false

/-- The same latency and the same hardware. -/
def sameOutcome (p q : Point) : Bool := p.latency = q.latency && p.resources = q.resources

/-- Nothing dominates itself. -/
theorem dominates_self (p : Point) : p.dominates p = false := by
  unfold dominates
  split <;> simp_all

end Point

/-! ## 3. The frontier -/

/-- Whether a point stands on the frontier of `all`, with the points `earlier` before it: its
    latency is known, no point dominates it, and no earlier one has the same outcome. -/
def onFrontier (all earlier : List Point) (p : Point) : Bool :=
  p.latency.toOption.isSome && !(all.any fun q => q.dominates p) &&
    !(earlier.any fun q => q.sameOutcome p)

/-- The points of a list that stand on the frontier of `all`, where `earlier` are the points before
    the list, the latest first. -/
def frontierFrom (all : List Point) : (earlier : List Point) → List Point → List Point
  | _, [] => []
  | earlier, p :: rest =>
    if onFrontier all earlier p then p :: frontierFrom all (p :: earlier) rest
    else frontierFrom all (p :: earlier) rest

/-- The points of known latency that no other dominates, each outcome once, in their order. -/
def frontier (points : List Point) : List Point := frontierFrom points [] points

theorem frontierFrom_sublist (all : List Point) (earlier points : List Point) :
    (frontierFrom all earlier points).Sublist points := by
  induction points generalizing earlier with
  | nil => exact .slnil
  | cons p rest ih =>
    unfold frontierFrom
    split
    · exact (ih _).cons_cons p
    · exact (ih _).cons p

/-- **Membership**: a point is kept exactly if it stands on the frontier at one of its places. -/
theorem mem_frontierFrom_iff (all earlier points : List Point) (p : Point) :
    p ∈ frontierFrom all earlier points ↔
      ∃ before after, points = before ++ p :: after ∧
        onFrontier all (before.reverse ++ earlier) p = true := by
  induction points generalizing earlier with
  | nil => simp [frontierFrom]
  | cons q rest ih =>
    have tail : p ∈ frontierFrom all (q :: earlier) rest ↔
        ∃ before after, q :: rest = (q :: before) ++ p :: after ∧
          onFrontier all ((q :: before).reverse ++ earlier) p = true := by
      simp [ih]
    unfold frontierFrom
    split
    · rename_i h
      rw [List.mem_cons, tail]
      constructor
      · rintro (rfl | ⟨before, after, e, hp⟩)
        · exact ⟨[], rest, rfl, h⟩
        · exact ⟨q :: before, after, e, hp⟩
      · rintro ⟨before, after, e, hp⟩
        cases before with
        | nil => exact .inl (List.cons.inj e).1.symm
        | cons b before =>
          obtain ⟨rfl, e⟩ := List.cons.inj e
          exact .inr ⟨before, after, by rw [e], hp⟩
    · rename_i h
      rw [tail]
      constructor
      · rintro ⟨before, after, e, hp⟩
        exact ⟨q :: before, after, e, hp⟩
      · rintro ⟨before, after, e, hp⟩
        cases before with
        | nil =>
          obtain ⟨rfl, -⟩ := List.cons.inj e
          exact absurd hp h
        | cons b before =>
          obtain ⟨rfl, e⟩ := List.cons.inj e
          exact ⟨before, after, by rw [e], hp⟩

end DesignSpace
