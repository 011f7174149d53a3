/-
  Subject:   FORESTS WITH OTHER NUMBERS. A region that is given another number is the same region
             otherwise: nothing but its number is said of it by its number.

  * `Region.renumber`, `Forest.renumber`, `Nest.renumber`: every number replaced;
  * `Forest.ids_renumber`, `find?_renumber`, `above_renumber`: regions stand where they stood, and
    are found by their new numbers where different regions have different ones;
  * `Forest.flatten_renumber`, `Nest.accesses_renumber`, `ranges_renumber`, `opCount_renumber`: what
    is read off a nest without its numbers.
-/
import Mathlib.Data.Set.Function
import DesignSpace.Proofs.Forest.Bare
import DesignSpace.Proofs.Forest.Path

namespace DesignSpace

variable {g : RegionId → RegionId}

/-! ## 1. Other numbers -/

/-- A region with another number. -/
def Region.renumber (g : RegionId → RegionId) (r : Region) : Region := { r with id := g r.id }

/-- A forest whose regions have other numbers. -/
def Forest.renumber (g : RegionId → RegionId) (f : Forest) : Forest := f.map (Region.renumber g)

/-- A nest whose regions have other numbers. -/
def Nest.renumber (g : RegionId → RegionId) (n : Nest) : Nest := n.map (Region.renumber g)

/-! ## 2. Forests -/

namespace Forest

variable {s : Set RegionId} {f : Forest} {id : RegionId}

@[simp] theorem renumber_cons (r : Region) (below after : Forest) :
    (cons r below after).renumber g =
      cons (r.renumber g) (below.renumber g) (after.renumber g) := rfl

@[simp] theorem nests_renumber (f : Forest) :
    (f.renumber g).nests = f.nests.map (Nest.renumber g) := nests_map f

@[simp] theorem ids_renumber (f : Forest) : (f.renumber g).ids = f.ids.map g := by
  rw [ids, renumber, regions_map, List.map_map, ids, List.map_map]
  rfl

@[simp] theorem accesses_renumber (f : Forest) : (f.renumber g).accesses = f.accesses := by
  rw [accesses, renumber, regions_map, List.flatMap_map]
  rfl

@[simp] theorem loops_renumber (f : Forest) : (f.renumber g).loops = f.loops := by
  rw [loops, renumber, regions_map, List.filterMap_map]
  rfl

@[simp] theorem blocks_renumber (f : Forest) : (f.renumber g).blocks = f.blocks := by
  rw [blocks, renumber, regions_map, List.filterMap_map]
  rfl

/-- **A region is found by its new number**, where no other region has that number. -/
theorem find?_renumber (hg : Set.InjOn g s) (hf : ∀ i ∈ f.ids, i ∈ s) (hid : id ∈ s) :
    (f.renumber g).find? (g id) = (f.find? id).map (Nest.renumber g) := by
  induction f with
  | nil => rfl
  | cons r below after ihb iha =>
      rw [ids_cons, List.forall_mem_cons, List.forall_mem_append] at hf
      obtain ⟨hr, hb, ha⟩ := hf
      have hsame : (r.renumber g).id = g id ↔ r.id = id := hg.eq_iff hr hid
      rw [renumber_cons, find?_cons, find?_cons, ihb hb, iha ha]
      by_cases h : r.id = id
      · rw [if_pos h, if_pos (hsame.mpr h)]
        rfl
      · rw [if_neg h, if_neg (mt hsame.mp h), Option.map_or]

/-- **The path to a region** is the path that it was. -/
theorem above_renumber (hg : Set.InjOn g s) (hf : ∀ i ∈ f.ids, i ∈ s) (hid : id ∈ s) :
    above (g id) (f.renumber g) = (above id f).map (List.map (Nest.renumber g)) := by
  induction f with
  | nil => rfl
  | cons r below after ihb iha =>
      rw [ids_cons, List.forall_mem_cons, List.forall_mem_append] at hf
      obtain ⟨hr, hb, ha⟩ := hf
      have hsame : (r.renumber g).id = g id ↔ r.id = id := hg.eq_iff hr hid
      rw [renumber_cons, above_cons, above_cons, ihb hb, iha ha]
      by_cases h : r.id = id
      · rw [if_pos h, if_pos (hsame.mpr h)]
        rfl
      · rw [if_neg h, if_neg (mt hsame.mp h), Option.map_or, Option.map_map, Option.map_map]
        rfl

/-- The blocks of a flat body are the same. -/
@[simp] theorem flatten_renumber (c : Context) (chain : Nat) (f : Forest) :
    (f.renumber g).flatten c chain = f.flatten c chain := by
  induction f generalizing c chain with
  | nil => rfl
  | cons r below after ihb iha =>
      have hacc : (Nest.mk (r.renumber g) (below.renumber g)).accesses =
          (Nest.mk r below).accesses :=
        accesses_renumber (Nest.mk r below).toForest
      rw [renumber_cons, flatten, flatten, iha, hacc]
      congr 1
      obtain ⟨id, k, comp⟩ := r
      cases k with
      | block b => rfl
      | loop l => exact ihb _ _
      | func f => exact ihb _ _
      | dataflow => exact ihb _ _

end Forest

/-! ## 3. Nests -/

namespace Nest

@[simp] theorem children_renumber (n : Nest) :
    (n.renumber g).children = n.children.map (Nest.renumber g) :=
  Forest.roots_map n.below

/-- The loop of a nest is the same, if it is one. -/
@[simp] theorem loop?_renumber (n : Nest) :
    (n.renumber g).region.loop? = n.region.loop? := rfl

theorem length_children_renumber (n : Nest) :
    (n.renumber g).children.length = n.children.length := by
  rw [children_renumber, List.length_map]

@[simp] theorem accesses_renumber (n : Nest) : (n.renumber g).accesses = n.accesses :=
  Forest.accesses_renumber n.toForest

/-- The operations of a nest are counted in its blocks. -/
@[simp] theorem opCount_renumber (n : Nest) : (n.renumber g).opCount = n.opCount :=
  congrArg (List.foldl (fun (sum : Nat) (b : Block) => sum + b.ops.length) 0)
    (Forest.blocks_renumber n.toForest)

@[simp] theorem isInnermostLoop_renumber (n : Nest) :
    (n.renumber g).isInnermostLoop = n.isInnermostLoop := by
  rw [isInnermostLoop, children_renumber, List.all_map]
  rfl

@[simp] theorem innerLoopsStatic_renumber (n : Nest) :
    (n.renumber g).innerLoopsStatic = n.innerLoopsStatic :=
  congrArg (fun ls => List.all ls _) (Forest.loops_renumber n.below)

@[simp] theorem ranges_renumber (n : Nest) : (n.renumber g).ranges = n.ranges :=
  congrArg (fun ls => Keyed.ofList (List.map _ ls)) (Forest.loops_renumber n.toForest)

@[simp] theorem stages_renumber (n : Nest) : (n.renumber g).stages = n.stages := by
  rw [stages, stages, length_children_renumber]
  rfl

end Nest

end DesignSpace
