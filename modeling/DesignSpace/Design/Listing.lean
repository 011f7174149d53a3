/-
  Subject:   LISTINGS: designs written flat, as a list of regions that name their parents.

  * `Record`, `Listing`: one region with its parent; a name, records and arrays;
  * `Walk`, `Record.subtree`: a walk down by the parents that records name;
  * `Listing.design`: the design of a listing, or what is wrong with it;
  * `Design.listing`: a design as a listing, parents first, siblings in their order;
  * `Builder`: a listing put together step by step, with numbers in the order of the steps.
-/
import DesignSpace.Design.Check

namespace DesignSpace

/-- One region of a listing. -/
structure Record where
  region : Region
  parent : Option RegionId
deriving DecidableEq, Repr

/-- A design written flat. Siblings stand in their order, with any other records between. -/
structure Listing where
  name : String
  records : List Record
  arrays : List ArrayDecl := []
deriving DecidableEq, Repr

/-! ## 1. From region to region -/

namespace Record

/-- The number of the region. -/
def id (r : Record) : RegionId := r.region.id

/-- The records with a given parent, in their order. -/
def childrenOf (all : List Record) (parent : RegionId) : List Record :=
  all.filter fun r => r.parent = some parent

/-- The numbers of the parts of a region, in their order. -/
def partsOf (all : List Record) (id : RegionId) : List RegionId :=
  (childrenOf all id).map Record.id

end Record

/-- A walk down from region to region: the numbers still to visit, the next one first; the numbers
    met so far; and the regions listed so far. -/
structure Walk where
  pending : List RegionId
  met : List RegionId := []
  listed : List RegionId := []
deriving DecidableEq, Repr

namespace Walk

variable (all : List Record)

/-- One step. A number met before is passed over. A region met for the first time is listed, and its
    parts are visited before all that was to be visited after it. -/
def step (w : Walk) : Walk :=
  match w.pending with
  | [] => w
  | id :: rest =>
    if w.met.contains id then { w with pending := rest }
    else if (all.map Record.id).contains id then
      ⟨Record.partsOf all id ++ rest, id :: w.met, w.listed ++ [id]⟩
    else ⟨rest, id :: w.met, w.listed⟩

/-- The records whose parent has not been met. -/
def ahead (met : List RegionId) : List Record :=
  all.filter fun r => r.parent.any fun p => p ∉ met

/-- The steps to come, at most: the numbers to visit, and those that will be added to them. -/
def left (w : Walk) : Nat := w.pending.length + (ahead all w.met).length

/-- The records that a number met for the first time takes away are those of its parts. -/
theorem length_ahead_cons {met : List RegionId} {id : RegionId} (h : id ∉ met) :
    (ahead all (id :: met)).length + (Record.partsOf all id).length = (ahead all met).length := by
  unfold ahead Record.partsOf Record.childrenOf
  simp only [List.length_map, List.mem_cons, not_or, Bool.decide_and, decide_not]
  induction all with
  | nil => rfl
  | cons r rs ih =>
    cases hp : r.parent with
    | none => simpa [hp] using ih
    | some p =>
      by_cases hid : p = id
      · subst hid
        simp [hp, h]
        omega
      · by_cases hm : p ∈ met
        · simpa [hp, hid, hm] using ih
        · simp [hp, hid, hm]
          omega

/-- A step leaves fewer steps to come. -/
theorem left_step {w : Walk} (h : w.pending ≠ []) : left all (step all w) < left all w := by
  unfold left step
  cases hp : w.pending with
  | nil => exact absurd hp h
  | cons id rest =>
    dsimp only
    by_cases hm : w.met.contains id
    · rw [if_pos hm]
      exact Nat.add_lt_add_right (Nat.lt_succ_self _) _
    · have hcons := length_ahead_cons all fun hmem => hm (List.contains_iff_mem.mpr hmem)
      rw [if_neg hm]
      split <;> simp only [List.length_append, List.length_cons] <;> omega

/-- The walk at its end, where nothing is left to visit. -/
def finish (w : Walk) : Walk := if w.pending = [] then w else finish (step all w)
termination_by left all w
decreasing_by exact left_step all ‹_›

end Walk

/-- The regions at and below a region in the order of a walk down, its own number first. -/
def Record.subtree (all : List Record) (id : RegionId) : List RegionId :=
  (Walk.finish all { pending := [id] }).listed

/-! ## 2. From a listing to a tree -/

namespace Record

/-- The first record whose number has come before. -/
def repeated? : (before : List RegionId) → List Record → Option RegionId
  | _, [] => none
  | before, r :: rs => if before.contains r.id then some r.id else repeated? (r.id :: before) rs

/-- The only record without a parent, where every parent is among the numbers `known`. The first
    record that breaks one of the two rules is reported. -/
def root? (known : List RegionId) : (first : Option Record) → List Record → Except Defect Record
  | none, [] => .error .noRoot
  | some r, [] => .ok r
  | first, r :: rs =>
    match r.parent, first with
    | none, none => root? known (some r) rs
    | none, some f => .error (.secondRoot f.id r.id)
    | some p, first =>
      if known.contains p then root? known first rs else .error (.unknownParent r.id p)

/-- The forest of some records, with what the list `all` puts below them. A path through distinct
    records is no longer than `all`, so as many levels hold everything that hangs on the root. -/
def forest (all : List Record) : (levels : Nat) → List Record → Forest
  | 0, _ => .nil
  | levels + 1, rs =>
    rs.foldr (fun r after => .cons r.region (forest all levels (childrenOf all r.id)) after) .nil

end Record

namespace Listing

/-- The tree of a listing, with no rule checked but those for the tree itself. A record that does
    not hang on the root hangs on a cycle; the least one is reported. -/
def tree (l : Listing) : Except Defect Design := do
  match Record.repeated? [] l.records with
  | some id => throw (.repeatedRegion id)
  | none => pure ()
  let known := l.records.map Record.id
  let root ← Record.root? known none l.records
  let below := Record.forest l.records l.records.length (Record.childrenOf l.records root.id)
  let reached := Record.subtree l.records root.id
  match (known.filter fun id => !reached.contains id).min? with
  | some id => throw (.cycle id)
  | none => return ⟨l.name, root.region, below, l.arrays⟩

/-- The design of a listing. -/
def design (l : Listing) : Except Defect Design := do
  let d ← l.tree
  d.check
  return d

end Listing

/-! ## 3. From a tree to a listing -/

/-- The records of a forest whose regions have a given parent. -/
def Forest.records (parent : Option RegionId) : Forest → List Record
  | .nil => []
  | .cons r below after => ⟨r, parent⟩ :: (below.records (some r.id) ++ after.records parent)

/-- A design as a listing. -/
def Design.listing (d : Design) : Listing := ⟨d.name, d.forest.records none, d.arrays⟩

/-! ## 4. Step by step -/

/-- A listing in the making. The number of a new region is the number of regions before it. -/
structure Builder where
  listing : Listing
deriving DecidableEq, Repr

namespace Builder

/-- The empty listing of a name. -/
def start (name : String) : Builder := ⟨⟨name, [], []⟩⟩

/-- The number of the next region. -/
def next (b : Builder) : RegionId := b.listing.records.length

/-- One more region. -/
def region (b : Builder) (parent : Option RegionId) (kind : Kind) : Builder :=
  ⟨{ b.listing with records := b.listing.records ++ [⟨⟨b.next, kind, none⟩, parent⟩] }⟩

/-- One more array. -/
def array (b : Builder) (a : ArrayDecl) : Builder :=
  ⟨{ b.listing with arrays := b.listing.arrays ++ [a] }⟩

/-- The listing with one region changed. -/
def change (b : Builder) (id : RegionId) (f : Region → Region) : Builder :=
  ⟨{ b.listing with
      records := b.listing.records.map fun r =>
        if r.id = id then { r with region := f r.region } else r }⟩

/-- A region annotated with a composition. -/
def compose (b : Builder) (id : RegionId) (c : Composition) : Builder :=
  b.change id fun r => { r with composition := some c }

/-- A loop given other directives; another region stays as it is. -/
def directives (b : Builder) (id : RegionId) (ds : LoopDirectives) : Builder :=
  b.change id fun r =>
    match r.kind with
    | .loop l => { r with kind := .loop { l with directives := ds } }
    | _ => r

end Builder

end DesignSpace
