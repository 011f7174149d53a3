/-
  Subject:   ONE TREE, HOWEVER IT IS TRAVERSED. Parts, parents, what is above a region, what is
             below it and the order of the whole tree say the same about the design of a listing,
             and what they say is what the records say.

  * `Design.children`, `Design.parent?`: from a region to its parts, and to what it is a part of;
  * `Record.parentOf`, `Record.ancestors`: the same by records, with a climb that gives up where
    parents run in circles;
  * `Forest.parent_of_above`, `Design.ancestors_eq`, `subtree_eq`: each traversal by its next step;
  * `Listing.subtree_eq`, `ancestors_eq`: the walk down and the climb go through the tree;
  * `Listing.Traversed`, `Listing.traversed`: **the traversals of every design agree**, and the walk
    down ends on any listing.
-/
import DesignSpace.Proofs.Design.Records

namespace DesignSpace

/-! ## 1. From region to region -/

/-- The parts of a region, in their order. -/
def Design.children (d : Design) (id : RegionId) : List RegionId :=
  match d.find? id with
  | some n => n.below.topIds
  | none => []

/-- The region that a region is a part of. -/
def Design.parent? (d : Design) (id : RegionId) : Option RegionId :=
  (d.forest.parent? id).map fun n => n.region.id

namespace Record

/-- The parent that the record of a region names. -/
def parentOf (all : List Record) (id : RegionId) : Option RegionId :=
  (all.find? fun r => r.id = id).bind Record.parent

/-- A climb from parent to parent, after the numbers of a chain. It ends at a number that has been
    on the chain, and with a chain that is longer than the table. -/
def climb (all : List Record) (chain : List RegionId) : Option RegionId → List RegionId
  | none => chain
  | some p =>
    if p ∈ chain ∨ all.length < chain.length then chain
    else climb all (chain ++ [p]) (parentOf all p)
termination_by all.length + 1 - chain.length
decreasing_by
  rw [List.length_append, List.length_singleton]
  omega

/-- The regions above a region by the records, the nearest first. -/
def ancestors (all : List Record) (id : RegionId) : List RegionId := climb all [] (parentOf all id)

end Record

/-! ## 2. Up -/

namespace Forest

variable {f : Forest} {n : Nest} {p : Option RegionId} {id : RegionId} {path : List Nest}

/-- **The parent in the record** of a region is the last nest on the path to it, or what the forest
    hangs on. -/
theorem parent_of_above {q : Record} (hf : f.ids.Nodup) (hq : q ∈ f.records p)
    (h : f.above q.id = some path) :
    q.parent = (path.getLast?.map fun n => n.region.id).or p := by
  induction f generalizing p path with
  | nil => exact absurd hq List.not_mem_nil
  | cons r below after ihb iha =>
      have ap := apart_of_nodup hf
      have hmem : ∀ {g : Forest} {i : Option RegionId}, q ∈ g.records i → q.id ∈ g.ids :=
        fun {g i} hq => map_id_records i g ▸ List.mem_map_of_mem hq
      rw [records_cons, List.mem_cons, List.mem_append] at hq
      rcases hq with rfl | hq | hq
      · have hr : r.id = Record.id ⟨r, p⟩ := rfl
        rw [above_cons, if_pos hr] at h
        obtain rfl := Option.some.inj h
        rfl
      · obtain ⟨rest, hrest⟩ := exists_above_of_mem_ids (hmem hq)
        obtain rfl := Option.some.inj ((above_of_below ap hrest).symm.trans h)
        rw [ihb ap.nodupBelow hq hrest, List.getLast?_cons]
        cases rest.getLast? <;> rfl
      · obtain ⟨rest, hrest⟩ := exists_above_of_mem_ids (hmem hq)
        obtain rfl := Option.some.inj ((above_of_after ap hrest).symm.trans h)
        exact iha ap.nodupAfter hq hrest

/-- What lies below the regions at the top, one after the other. -/
theorem ids_eq_flatMap (f : Forest) : f.ids = f.roots.flatMap Nest.ids := by
  induction f with
  | nil => rfl
  | cons r below after _ iha =>
      rw [ids_cons, roots, List.flatMap_cons, Nest.ids_eq, ← iha]
      rfl

theorem find?_of_mem (hf : f.ids.Nodup) (hn : n ∈ f.nests) : f.find? n.region.id = some n := by
  obtain ⟨m, hm⟩ := exists_find?_of_mem_ids (mem_ids_of_mem_nests hn)
  rw [hm, eq_of_id_eq hf (find?_mem hm).1 hn (find?_mem hm).2]

end Forest

namespace Design

variable {d : Design} {id a c p : RegionId}

/-- Nothing is above a region that is no part of another one. -/
theorem above_of_parent?_eq_none (h : d.parent? id = none) : d.above id = [] := by
  unfold parent? Forest.parent? at h
  unfold above
  cases hpath : d.forest.above id with
  | none => rfl
  | some path =>
      rw [hpath] at h
      exact List.getLast?_eq_none_iff.mp (Option.map_eq_none_iff.mp h)

/-- What is above a part is the region that it is a part of, and what is above that one. -/
theorem above_of_parent? (hd : d.preorder.Nodup) (h : d.parent? c = some p) :
    ∃ n, n.region.id = p ∧ d.above c = d.above p ++ [n] := by
  obtain ⟨n, hn, rfl⟩ := Option.map_eq_some_iff.mp h
  obtain ⟨path, hpath, hlast⟩ := Option.bind_eq_some_iff.mp hn
  obtain ⟨before, rfl⟩ := List.getLast?_eq_some_iff.mp hlast
  exact ⟨n, rfl, by rw [above_eq hpath, above_eq (Forest.above_of_append hd hpath)]⟩

/-- **Step by step upward**: the parent, and what is above the parent. -/
theorem ancestors_eq (hd : d.preorder.Nodup) (id : RegionId) :
    d.ancestors id = match d.parent? id with
      | some p => p :: d.ancestors p
      | none => [] := by
  cases h : d.parent? id with
  | none => rw [ancestors, above_of_parent?_eq_none h]; rfl
  | some p =>
      obtain ⟨n, rfl, hn⟩ := above_of_parent? hd h
      rw [ancestors, hn, List.map_append, List.reverse_append]
      rfl

theorem depth_of_parent? (hd : d.preorder.Nodup) (h : d.parent? c = some p) :
    d.depth c = d.depth p + 1 := by
  obtain ⟨n, -, hn⟩ := above_of_parent? hd h
  rw [depth, hn, List.length_append]
  rfl

/-- The way up ends in the root. -/
theorem getLast?_ancestors (h : id ∈ d.preorder) :
    (id :: d.ancestors id).getLast? = some d.root.id := by
  obtain ⟨path, hpath⟩ := Forest.exists_above_of_mem_ids h
  rw [ancestors, above_eq hpath]
  have htop : (if d.root.id = id then some []
      else ((d.below.above id).map (d.top :: ·)).or none) = some path :=
    (Forest.above_cons d.root d.below .nil id).symm.trans hpath
  by_cases hid : d.root.id = id
  · rw [if_pos hid] at htop
    obtain rfl := Option.some.inj htop
    rw [hid]
    rfl
  · rw [if_neg hid, Option.or_none] at htop
    obtain ⟨rest, -, rfl⟩ := Option.map_eq_some_iff.mp htop
    rw [List.map_cons, List.reverse_cons, ← List.cons_append, List.getLast?_concat]
    rfl

/-! ## 3. Down -/

/-- **Step by step downward**: the region, and what is at and below its parts, part by part. -/
theorem subtree_eq (hd : d.preorder.Nodup) (h : a ∈ d.preorder) :
    d.subtree a = a :: (d.children a).flatMap d.subtree := by
  obtain ⟨n, hn⟩ := Forest.exists_find?_of_mem_ids h
  obtain ⟨hmem, hid⟩ := Forest.find?_mem hn
  have hfind : d.find? a = some n := hn
  have hroots : ∀ m ∈ n.below.roots, d.subtree m.region.id = m.ids := by
    intro m hm
    have hmf := Forest.nests_below_subset hmem m (Forest.roots_subset_nests _ m hm)
    have hfind : d.find? m.region.id = some m := Forest.find?_of_mem hd hmf
    rw [subtree, hfind]
  rw [subtree, children, hfind]
  show n.ids = a :: n.below.topIds.flatMap d.subtree
  rw [Nest.ids_eq, hid, Forest.ids_eq_flatMap, Forest.topIds, List.flatMap_map]
  exact congrArg (a :: ·) (List.flatMap_congr fun m hm => (hroots m hm).symm)

theorem subtree_root (d : Design) : d.subtree d.root.id = d.preorder := by
  rw [subtree, find?_root]
  rfl

end Design

/-! ## 4. By the records -/

namespace Listing

variable {l : Listing} {d : Design} {id c p : RegionId}

theorem perm_preorder (h : l.tree = .ok d) : d.preorder.Perm (l.records.map Record.id) := by
  have hperm := (perm_of_tree h).map Record.id
  rwa [show d.listing.records.map Record.id = d.preorder from Forest.map_id_records none _]
    at hperm

theorem mem_preorder_iff (h : l.tree = .ok d) :
    id ∈ d.preorder ↔ ∃ r ∈ l.records, r.id = id := by
  rw [(perm_preorder h).mem_iff, List.mem_map]

/-- The parts of a region are the records under it. -/
theorem children_eq (h : l.tree = .ok d) (id : RegionId) :
    d.children id = Record.partsOf l.records id := by
  rw [Record.partsOf, ← childrenOf_of_tree h id, Design.children]
  cases hn : d.find? id with
  | none =>
      have hid : id ∉ d.forest.ids := Forest.find?_eq_none_iff.mp hn
      rw [Design.listing, Forest.childrenOf_records_eq_nil (by simp) hid]
      rfl
  | some n =>
      rw [Design.listing, Forest.childrenOf_records (nodup_of_tree h) (by simp) hn,
        Forest.topRecords, List.map_map]
      rfl

/-- A region is a part of the region that its record names. -/
theorem parent?_of_mem (h : l.tree = .ok d) {r : Record} (hr : r ∈ l.records) :
    d.parent? r.id = r.parent := by
  have hq : r ∈ d.forest.records none := (perm_of_tree h).mem_iff.mpr hr
  obtain ⟨path, hpath⟩ := Forest.exists_above_of_mem_ids ((mem_preorder_iff h).mpr ⟨r, hr, rfl⟩)
  rw [Forest.parent_of_above (nodup_of_tree h) hq hpath, Option.or_none, Design.parent?,
    Forest.parent?, hpath]
  rfl

theorem parent?_eq (h : l.tree = .ok d) (id : RegionId) :
    d.parent? id = Record.parentOf l.records id := by
  unfold Record.parentOf
  cases hr : l.records.find? fun r => r.id = id with
  | none =>
      have hid : id ∉ d.forest.ids := fun hmem => by
        obtain ⟨r, hr', hid⟩ := (mem_preorder_iff h).mp hmem
        exact List.find?_eq_none.mp hr r hr' (decide_eq_true hid)
      rw [Design.parent?, Forest.parent?, Forest.above_eq_none_iff.mpr hid]
      rfl
  | some r =>
      obtain rfl : r.id = id := of_decide_eq_true (List.find?_some hr :)
      exact parent?_of_mem h (List.mem_of_find?_eq_some hr)

/-- **Parts and parents** are the same links. -/
theorem mem_children_iff (h : l.tree = .ok d) : c ∈ d.children p ↔ d.parent? c = some p := by
  rw [children_eq h, Record.partsOf, List.mem_map]
  constructor
  · intro hc
    obtain ⟨r, hr, rfl⟩ := hc
    obtain ⟨hr, hparent⟩ := Record.mem_childrenOf.mp hr
    rw [parent?_of_mem h hr, hparent]
  · intro hparent
    rw [parent?_eq h, Record.parentOf] at hparent
    obtain ⟨r, hr, hp⟩ := Option.bind_eq_some_iff.mp hparent
    exact ⟨r, Record.mem_childrenOf.mpr ⟨List.mem_of_find?_eq_some hr, hp⟩,
      of_decide_eq_true (List.find?_some hr :)⟩

/-- The tree is as the records have it. -/
theorem recorded_forest (h : l.tree = .ok d) : d.forest.Recorded l.records where
  known _ hi := (perm_preorder h).mem_iff.mp hi
  parts n hn := by
    have hfind : d.find? n.region.id = some n := Forest.find?_of_mem (nodup_of_tree h) hn
    rw [← children_eq h, Design.children, hfind]

/-- **The walk down** from any number lists what the tree has at and below it. -/
theorem subtree_eq (h : l.tree = .ok d) (id : RegionId) :
    Record.subtree l.records id = d.subtree id := by
  unfold Design.subtree
  cases hn : d.find? id with
  | none =>
      -- one step finds that there is no such region
      have hid : ¬ (l.records.map Record.id).contains id := fun hmem =>
        Forest.find?_eq_none_iff.mp hn
          ((perm_preorder h).mem_iff.mpr (List.contains_iff_mem.mp hmem))
      have hstep : Walk.step l.records { pending := [id] } = ⟨[], [id], []⟩ := by
        simp only [Walk.step]
        rw [if_neg (by simp), if_neg hid]
      rw [Record.subtree, Walk.finish_of_step (List.cons_ne_nil _ _), hstep,
        Walk.finish_of_pending rfl]
  | some n =>
      obtain ⟨hmem, rfl⟩ := Forest.find?_mem hn
      exact Walk.subtree_nest ((recorded_forest h).ofNest hmem)
        (Forest.nodup_nest (nodup_of_tree h) hmem)

/-- A climb in a tree goes on to the root: no number comes back, and so the chain is never longer
    than the table. -/
theorem climb_eq (h : l.tree = .ok d) (chain : List RegionId) (id : RegionId)
    (hnodup : (chain ++ d.ancestors id).Nodup) (hsub : chain ⊆ l.records.map Record.id) :
    Record.climb l.records chain (d.parent? id) = chain ++ d.ancestors id := by
  have hd := nodup_of_tree h
  induction hk : d.ancestors id generalizing chain id with
  | nil =>
      cases hp : d.parent? id with
      | none => rw [Record.climb, List.append_nil]
      | some p => rw [Design.ancestors_eq hd, hp] at hk; cases hk
  | cons q rest ih =>
      cases hp : d.parent? id with
      | none => rw [Design.ancestors_eq hd, hp] at hk; cases hk
      | some p =>
          rw [Design.ancestors_eq hd, hp] at hk
          obtain ⟨rfl, hrest⟩ := List.cons.inj hk
          have hmem : p ∈ d.ancestors id := by
            rw [Design.ancestors_eq hd, hp]
            exact List.mem_cons_self
          have hnew : p ∉ chain := fun hc => (List.nodup_append.mp hnodup).2.2 p hc p hmem rfl
          have hshort : chain.length ≤ l.records.length := by
            have hle := (List.subperm_of_subset (List.nodup_append.mp hnodup).1 hsub).length_le
            rwa [List.length_map] at hle
          rw [Record.climb, if_neg (by rw [not_or]; exact ⟨hnew, by omega⟩), ← parent?_eq h,
            ih (chain ++ [p]) p ?_ ?_ hrest, List.append_assoc]
          · rfl
          · rw [Design.ancestors_eq hd, hp] at hnodup
            rwa [List.append_assoc]
          · refine List.append_subset.mpr ⟨hsub, List.cons_subset.mpr ⟨?_, List.nil_subset _⟩⟩
            exact (perm_preorder h).mem_iff.mp (Design.mem_preorder_of_ancestor hd hmem).1

/-- **The climb** from any number passes what the tree has above it. -/
theorem ancestors_eq (h : l.tree = .ok d) (id : RegionId) :
    Record.ancestors l.records id = d.ancestors id := by
  rw [Record.ancestors, ← parent?_eq h]
  exact climb_eq h [] id (Design.nodup_ancestors (nodup_of_tree h) id) (List.nil_subset _)

end Listing

/-! ## 5. The traversals agree -/

/-- The traversals of a tree agree with each other and with the records of a listing. -/
structure Design.Traversed (d : Design) (records : List Record) : Prop where
  /-- The order of the tree has each region of the listing once. -/
  preorder_nodup : d.preorder.Nodup
  mem_preorder : ∀ id, id ∈ d.preorder ↔ ∃ r ∈ records, r.id = id
  preorder_eq : d.preorder = d.subtree d.root.id
  /-- Parts and parents are the links that the records name. -/
  children_eq : ∀ id, d.children id = Record.partsOf records id
  parent_eq : ∀ r ∈ records, d.parent? r.id = r.parent
  mem_children : ∀ c p, c ∈ d.children p ↔ d.parent? c = some p
  /-- Upward: the parent and what is above it, once each, to the root. -/
  ancestors_root : d.ancestors d.root.id = []
  ancestors_part : ∀ r p, d.parent? r = some p → d.ancestors r = p :: d.ancestors p
  ancestors_nodup : ∀ r, (d.ancestors r).Nodup
  ancestors_last : ∀ r ∈ d.preorder, r ≠ d.root.id → (d.ancestors r).getLast? = some d.root.id
  depth_root : d.depth d.root.id = 0
  depth_part : ∀ c p, d.parent? c = some p → d.depth c = d.depth p + 1
  /-- Downward: the region, and the same of its parts, in their order. -/
  subtree_part : ∀ a ∈ d.preorder, d.subtree a = a :: (d.children a).flatMap d.subtree
  mem_subtree : ∀ r ∈ d.preorder, ∀ a, r ∈ d.subtree a ↔ r = a ∨ a ∈ d.ancestors r
  /-- The walk down and the climb by the records go through the tree. -/
  walk : ∀ id, Record.subtree records id = d.subtree id
  climb : ∀ id, Record.ancestors records id = d.ancestors id

namespace Listing

variable {l : Listing} {d : Design}

theorem traversed_of_tree (h : l.tree = .ok d) : d.Traversed l.records := by
  have hd := nodup_of_tree h
  have hroot : d.above d.root.id = [] :=
    Design.above_eq ((Forest.above_cons d.root d.below .nil d.root.id).trans (if_pos rfl))
  refine {
    preorder_nodup := hd
    mem_preorder := fun _ => mem_preorder_iff h
    preorder_eq := d.subtree_root.symm
    children_eq := children_eq h
    parent_eq := fun _ => parent?_of_mem h
    mem_children := fun _ _ => mem_children_iff h
    ancestors_root := by rw [Design.ancestors, hroot]; rfl
    ancestors_part := fun r p hp => by rw [Design.ancestors_eq hd, hp]
    ancestors_nodup := Design.nodup_ancestors hd
    ancestors_last := fun r hr hne => ?_
    depth_root := congrArg List.length hroot
    depth_part := fun _ _ => Design.depth_of_parent? hd
    subtree_part := fun _ => Design.subtree_eq hd
    mem_subtree := fun r hr a => (Design.mem_subtree_iff hd).trans (and_iff_right hr)
    walk := subtree_eq h
    climb := ancestors_eq h }
  have hlast := Design.getLast?_ancestors hr
  cases hup : d.ancestors r with
  | nil =>
      rw [hup] at hlast
      exact absurd (Option.some.inj hlast) hne
  | cons p rest => rwa [hup, List.getLast?_cons_cons] at hlast

/-- **The traversals agree on one tree**, for each listing that is accepted. On any listing, also on
    one whose parents run in circles, the walk down from any number ends, after at most one step for
    each record and one more, and lists no region twice. -/
theorem traversed (l : Listing) :
    (∀ d, l.design = .ok d → d.Traversed l.records) ∧
      ∀ id, (Record.subtree l.records id).Nodup ∧ ∃ n ≤ l.records.length + 1,
        ((Walk.step l.records)^[n] { pending := [id] }).pending = [] ∧
          ((Walk.step l.records)^[n] { pending := [id] }).listed = Record.subtree l.records id :=
  ⟨fun _ h => traversed_of_tree (tree_of_design h).1, fun id =>
    ⟨Record.nodup_subtree l.records id, Record.exists_steps_subtree l.records id⟩⟩

/-- A function without parts, and apart from it two loops in each other and a third one in the first
    of them. -/
def circling : Listing where
  name := "circling"
  records :=
    [⟨⟨0, .func { name := "circling" }, none⟩, none⟩,
     ⟨⟨1, .loop { iv := "i", trip := .static 4 }, none⟩, some 2⟩,
     ⟨⟨2, .loop { iv := "j", trip := .static 4 }, none⟩, some 3⟩,
     ⟨⟨3, .loop { iv := "k", trip := .static 4 }, none⟩, some 2⟩]

theorem traversed_circling :
    Smoothing.design.Traversed Smoothing.listing.records ∧
      (Record.subtree circling.records 3).Nodup ∧ Record.subtree circling.records 3 = [3, 2, 1] :=
  ⟨(traversed Smoothing.listing).1 Smoothing.design Smoothing.design_listing,
    ((traversed circling).2 3).1, by decide +kernel⟩

end Listing

end DesignSpace
