/-
  Subject:   THE TREE OF REGIONS. A forest is a list of regions, each with the forest below it; a
             nest is one region with what lies below it.

  * `Forest`: first region, what lies below it, and the regions after it;
  * `Forest.roots`: its regions with what lies below each;
  * `Forest.nests`: all nests, a region before what lies below it;
  * `Forest.find?`, `Forest.above`: a region by its number, and the regions around it;
  * `Forest.update`: the forest with one region changed.
-/
import DesignSpace.Region
import DesignSpace.Keyed

namespace DesignSpace

/-- A sequence of regions, each with the forest below it. -/
inductive Forest where
  | nil
  | cons (region : Region) (below : Forest) (after : Forest)
deriving DecidableEq, Repr

/-- A region with the forest below it. -/
structure Nest where
  region : Region
  below : Forest
deriving DecidableEq, Repr

namespace Forest

/-! ## 1. Views -/

/-- The regions at the top, each with what lies below it. -/
def roots : Forest → List Nest
  | nil => []
  | cons r below after => ⟨r, below⟩ :: after.roots

/-- The number of regions at the top. -/
def width (f : Forest) : Nat := f.roots.length

/-- All nests: each region before those below it, and these before the regions after it. -/
def nests : Forest → List Nest
  | nil => []
  | cons r below after => ⟨r, below⟩ :: (below.nests ++ after.nests)

/-- All regions in the same order. -/
def regions (f : Forest) : List Region := f.nests.map Nest.region

/-- The numbers of all regions in the same order. -/
def ids (f : Forest) : List RegionId := f.regions.map Region.id

/-- The accesses of all regions in the same order. -/
def accesses (f : Forest) : List Access := f.regions.flatMap Region.accesses

/-- The loops among the regions in the same order. -/
def loops (f : Forest) : List Loop := f.regions.filterMap Region.loop?

/-- The blocks among the regions in the same order. -/
def blocks (f : Forest) : List Block := f.regions.filterMap Region.block?

@[simp] theorem regions_nil : regions nil = [] := rfl

theorem regions_cons (r : Region) (below after : Forest) :
    regions (cons r below after) = r :: (below.regions ++ after.regions) := by
  simp [regions, nests]

/-! ## 2. Single regions -/

/-- The nest of a region. -/
def find? (f : Forest) (id : RegionId) : Option Nest := f.nests.find? fun n => n.region.id = id

/-- The nests around a region, the outermost first; none if there is no such region. -/
def above (id : RegionId) : Forest → Option (List Nest)
  | nil => none
  | cons r below after =>
    if r.id = id then some []
    else
      match above id below with
      | some path => some (⟨r, below⟩ :: path)
      | none => above id after

/-- The nest around a region that is nearest to it. -/
def parent? (f : Forest) (id : RegionId) : Option Nest := (above id f).bind List.getLast?

/-- The forest with the kind of one region changed. -/
def update (id : RegionId) (change : Kind → Kind) : Forest → Forest
  | nil => nil
  | cons r below after =>
    cons (if r.id = id then { r with kind := change r.kind } else r)
      (update id change below) (update id change after)

end Forest

namespace Nest

/-! ## 3. Nests -/

/-- The nest as a forest of its own. -/
def toForest (n : Nest) : Forest := .cons n.region n.below .nil

/-- The regions of the nest, its own region first. -/
def regions (n : Nest) : List Region := n.toForest.regions

/-- The numbers of the regions of the nest. -/
def ids (n : Nest) : List RegionId := n.regions.map Region.id

/-- The accesses in the nest. -/
def accesses (n : Nest) : List Access := n.toForest.accesses

/-- The parts of the region. -/
def children (n : Nest) : List Nest := n.below.roots

/-- The number of operations in the nest. -/
def opCount (n : Nest) : Nat := n.toForest.blocks.foldl (fun sum b => sum + b.ops.length) 0

/-- Whether the region is a loop with nothing but blocks directly below it. -/
def isInnermostLoop (n : Nest) : Bool :=
  n.region.loop?.isSome && n.children.all fun c => c.region.block?.isSome

/-- Whether all loops below the region are known to run a number of times. -/
def innerLoopsStatic (n : Nest) : Bool := n.below.loops.all fun l => l.trip.bounded.isSome

/-- The trip counts of the loops of the nest by induction variable. Of two loops over one variable
    the one that comes later in the nest counts. -/
def ranges (n : Nest) : List (String × Option Nat) :=
  Keyed.ofList (n.toForest.loops.map fun l => (l.iv, l.trip.bounded))

/-- The number of stages of the region. -/
def stages (n : Nest) : Nat := n.region.stages n.children.length

/-- How the stages of the region follow each other. -/
def composition (n : Nest) : Composition := if 1 < n.stages then .dataflow else .sequential

end Nest

end DesignSpace
