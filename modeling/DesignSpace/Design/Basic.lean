/-
  Subject:   DESIGNS: a tree of regions with one root, and a table of arrays.

  * `Design`: name, root, what lies below the root, arrays;
  * `Design.find?`, `Design.ancestors`, `Design.preorder`: the tree by region numbers;
  * `Design.array?`, `Design.scopeOf`, `Design.scopedTo`: the array table;
  * `Design.updateRegion`, `Design.updateArray`: the design with one entry changed.
-/
import DesignSpace.Arranged
import DesignSpace.Forest

namespace DesignSpace

/-- A hardware design. -/
structure Design where
  name : String
  root : Region
  below : Forest
  arrays : List ArrayDecl
deriving DecidableEq, Repr

namespace Design

/-! ## 1. The tree -/

/-- The nest of the root, which is the whole tree. -/
def top (d : Design) : Nest := ⟨d.root, d.below⟩

/-- The whole tree as a forest. -/
def forest (d : Design) : Forest := d.top.toForest

/-- The numbers of all regions, each region before those below it. -/
def preorder (d : Design) : List RegionId := d.forest.ids

/-- All nests by ascending number of their region. -/
def ascending (d : Design) : List Nest :=
  arranged (fun a b => decide (a.region.id ≤ b.region.id)) d.forest.nests

/-- The number of regions. -/
def size (d : Design) : Nat := d.preorder.length

/-- The nest of a region. -/
def find? (d : Design) (id : RegionId) : Option Nest := d.forest.find? id

/-- The loop that a region is, if there is such a region. -/
def loop? (d : Design) (id : RegionId) : Option Loop := (d.find? id).bind fun n => n.region.loop?

/-- The nests around a region, the outermost first. -/
def above (d : Design) (id : RegionId) : List Nest := (d.forest.above id).getD []

/-- The regions around a region, the nearest first. -/
def ancestors (d : Design) (id : RegionId) : List RegionId :=
  ((d.above id).map fun n => n.region.id).reverse

/-- The number of regions around a region. -/
def depth (d : Design) (id : RegionId) : Nat := (d.above id).length

/-- The regions of the nest of a region, its own number first. -/
def subtree (d : Design) (id : RegionId) : List RegionId :=
  match d.find? id with
  | some n => n.ids
  | none => []

/-! ## 2. The array table -/

/-- The array with a name. -/
def array? (d : Design) (name : String) : Option ArrayDecl := d.arrays.find? fun a => a.name = name

/-- The region whose lifetime an array shares. -/
def scopeOf (d : Design) (a : ArrayDecl) : RegionId := a.scope.getD d.root.id

/-- The arrays that share the lifetime of a region. -/
def scopedTo (d : Design) (id : RegionId) : List ArrayDecl :=
  d.arrays.filter fun a => d.scopeOf a = id

/-! ## 3. Changes -/

/-- The design with the kind of one region changed. -/
def updateRegion (d : Design) (id : RegionId) (change : Kind → Kind) : Design :=
  { d with
    root := if d.root.id = id then { d.root with kind := change d.root.kind } else d.root
    below := d.below.update id change }

/-- The design with the first array of a name changed. -/
def updateArray (d : Design) (name : String) (change : ArrayDecl → ArrayDecl) : Design :=
  { d with arrays := update d.arrays }
where
  /-- The table with the first array of the name changed. -/
  update : List ArrayDecl → List ArrayDecl
    | [] => []
    | a :: as => if a.name = name then change a :: as else a :: update as

theorem forest_updateRegion (d : Design) (id : RegionId) (change : Kind → Kind) :
    (d.updateRegion id change).forest = d.forest.update id change := by
  simp [forest, top, Nest.toForest, updateRegion, Forest.update]

end Design

end DesignSpace
