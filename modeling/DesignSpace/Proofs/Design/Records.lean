/-
  Subject:   A TREE AND THE LISTINGS OF IT. The records that a tree is written as say all about it,
             and the tree that a listing has is written as the records of the listing again.

  * `Forest.childrenOf_records`: the records under a region are those of its parts, in order;
  * `Record.Below`, `Forest.mem_below_iff`: what lies below a region, by following parents;
  * `Listing.tree_eq_ok_iff`: **when a listing has a tree, and which one**;
  * `Listing.perm_of_tree`, `childrenOf_of_tree`: the records of that tree are those of the
    listing, and siblings keep their order;
  * `Design.tree_listing`: a design is the tree of its own listing.
-/
import DesignSpace.Proofs.Design.Walk

namespace DesignSpace

/-! ## 1. The records of a forest -/

theorem Record.childrenOf_append (rs rs' : List Record) (id : RegionId) :
    childrenOf (rs ++ rs') id = childrenOf rs id ++ childrenOf rs' id :=
  List.filter_append _ _

namespace Forest

variable {f : Forest} {n : Nest} {p : Option RegionId} {id : RegionId} {q : Record}

theorem records_cons (p : Option RegionId) (r : Region) (below after : Forest) :
    (cons r below after).records p =
      ⟨r, p⟩ :: (below.records (some r.id) ++ after.records p) := rfl

theorem map_region_records (p : Option RegionId) (f : Forest) :
    (f.records p).map Record.region = f.regions := by
  induction f generalizing p with
  | nil => rfl
  | cons r below after ihb iha =>
      rw [records_cons, regions_cons, List.map_cons, List.map_append, ihb, iha]

theorem map_id_records (p : Option RegionId) (f : Forest) :
    (f.records p).map Record.id = f.ids := by
  have h := congrArg (List.map Region.id) (map_region_records p f)
  rw [List.map_map] at h
  exact h

/-- A record of a forest has the parent of the forest, or one in it. -/
theorem parent_of_mem_records (h : q ∈ f.records p) :
    q.parent = p ∨ ∃ i ∈ f.ids, q.parent = some i := by
  induction f generalizing p with
  | nil => exact absurd h List.not_mem_nil
  | cons r below after ihb iha =>
      rw [records_cons, List.mem_cons, List.mem_append] at h
      rw [ids_cons]
      rcases h with rfl | h | h
      · exact .inl rfl
      · right
        rcases ihb h with hq | ⟨i, hi, hq⟩
        · exact ⟨r.id, List.mem_cons_self, hq⟩
        · exact ⟨i, by simp [hi], hq⟩
      · rcases iha h with hq | ⟨i, hi, hq⟩
        · exact .inl hq
        · exact .inr ⟨i, by simp [hi], hq⟩

/-- The records of the regions at the top. -/
def topRecords (p : Option RegionId) (f : Forest) : List Record :=
  f.roots.map fun n => ⟨n.region, p⟩

/-- No record has a parent that is neither above the forest nor in it. -/
theorem childrenOf_records_eq_nil (hp : p ≠ some id) (hid : id ∉ f.ids) :
    Record.childrenOf (f.records p) id = [] := by
  refine List.filter_eq_nil_iff.mpr fun q hq hparent => ?_
  have hparent : q.parent = some id := by simpa using hparent
  rcases parent_of_mem_records hq with h | ⟨i, hi, h⟩
  · exact hp (h.symm.trans hparent)
  · exact hid (Option.some.inj (h.symm.trans hparent) ▸ hi)

/-- Below a parent that the forest does not hold, only the regions at the top stand. -/
theorem childrenOf_records_top (hid : id ∉ f.ids) :
    Record.childrenOf (f.records (some id)) id = f.topRecords (some id) := by
  induction f with
  | nil => rfl
  | cons r below after _ iha =>
      rw [ids_cons, List.mem_cons, List.mem_append, not_or, not_or] at hid
      have hr : some r.id ≠ some id := fun h => hid.1 (Option.some.inj h).symm
      have hfirst : Record.childrenOf ((cons r below after).records (some id)) id =
          ⟨r, some id⟩ :: Record.childrenOf
            (below.records (some r.id) ++ after.records (some id)) id :=
        List.filter_cons_of_pos (decide_eq_true rfl)
      rw [hfirst, Record.childrenOf_append, childrenOf_records_eq_nil hr hid.2.1, iha hid.2.2]
      rfl

/-- **The records under a region** are those of its parts, in their order. -/
theorem childrenOf_records (hf : f.ids.Nodup) (hp : p ≠ some id) (hn : f.find? id = some n) :
    Record.childrenOf (f.records p) id = n.below.topRecords (some id) := by
  induction f generalizing p with
  | nil => cases hn
  | cons r below after ihb iha =>
      have ap := apart_of_nodup hf
      have hfirst : Record.childrenOf ((cons r below after).records p) id =
          Record.childrenOf (below.records (some r.id) ++ after.records p) id :=
        List.filter_cons_of_neg (by simpa using hp)
      rw [hfirst, Record.childrenOf_append]
      rw [find?_cons] at hn
      by_cases hr : r.id = id
      · rw [if_pos hr] at hn
        obtain rfl := Option.some.inj hn
        subst hr
        rw [childrenOf_records_top ap.notBelow, childrenOf_records_eq_nil hp ap.notAfter,
          List.append_nil]
      · rw [if_neg hr] at hn
        have hr' : some r.id ≠ some id := fun h => hr (Option.some.inj h)
        cases hb : below.find? id with
        | none =>
            rw [hb, Option.none_or] at hn
            rw [childrenOf_records_eq_nil hr' (find?_eq_none_iff.mp hb), iha ap.nodupAfter hp hn,
              List.nil_append]
        | some m =>
            rw [hb, Option.some_or] at hn
            obtain rfl := Option.some.inj hn
            have hmem : id ∈ below.ids := by
              by_contra h
              rw [find?_eq_none_iff.mpr h] at hb
              cases hb
            rw [ihb ap.nodupBelow hr' hb, childrenOf_records_eq_nil hp (ap.disjoint id hmem),
              List.append_nil]

end Forest

/-! ## 2. What lies below a region -/

/-- **Below a region**: a record whose parent is the region, or lies below it. -/
inductive Record.Below (all : List Record) (id : RegionId) : Record → Prop where
  | part {q : Record} (h : q.parent = some id) : Below all id q
  | step {q r : Record} (hr : r ∈ all) (h : q.parent = some r.id) (hb : Below all id r) :
    Below all id q

namespace Forest

variable {f : Forest} {n : Nest} {p : Option RegionId} {id : RegionId} {q : Record}
  {all : List Record} {P : Record → Prop}

theorem roots_subset_nests (f : Forest) : ∀ n ∈ f.roots, n ∈ f.nests := by
  induction f with
  | nil => exact fun n hn => hn
  | cons r below after _ iha =>
      intro n hn
      rw [roots, List.mem_cons] at hn
      rw [nests, List.mem_cons, List.mem_append]
      rcases hn with hn | hn
      · exact .inl hn
      · exact .inr (.inr (iha n hn))

/-- What stands below a nest stands in the forest with the same parents. -/
theorem records_below_subset (hn : n ∈ f.nests) (p : Option RegionId) :
    ∀ q ∈ n.below.records (some n.region.id), q ∈ f.records p := by
  induction f generalizing p with
  | nil => exact absurd hn List.not_mem_nil
  | cons r below after ihb iha =>
      intro q hq
      rw [nests, List.mem_cons, List.mem_append] at hn
      rw [records_cons, List.mem_cons, List.mem_append]
      rcases hn with rfl | hn | hn
      · exact .inr (.inl hq)
      · exact .inr (.inl (ihb hn (some r.id) q hq))
      · exact .inr (.inr (iha hn p q hq))

/-- **From the top down**: what holds at the top, and of a record if it holds of its parent, holds
    of all records of a forest. -/
theorem records_induction (hsub : ∀ q ∈ f.records p, q ∈ all)
    (top : ∀ q ∈ all, q.parent = p → P q)
    (step : ∀ q ∈ all, ∀ r ∈ all, q.parent = some r.id → P r → P q) : ∀ q ∈ f.records p, P q := by
  induction f generalizing p with
  | nil => exact fun q hq => absurd hq List.not_mem_nil
  | cons r below after ihb iha =>
      have hr : ⟨r, p⟩ ∈ all := hsub _ List.mem_cons_self
      have hfirst : P ⟨r, p⟩ := top _ hr rfl
      have hrest : ∀ q ∈ below.records (some r.id) ++ after.records p, q ∈ all :=
        fun q hq => hsub q (List.mem_cons_of_mem _ hq)
      intro q hq
      rw [records_cons, List.mem_cons, List.mem_append] at hq
      rcases hq with rfl | hq | hq
      · exact hfirst
      · refine ihb (fun q hq => hrest q (List.mem_append_left _ hq)) ?_ q hq
        exact fun q hq hparent => step q hq _ hr hparent hfirst
      · exact iha (fun q hq => hrest q (List.mem_append_right _ hq)) top q hq

/-- The record of a part of a nest stands below it. -/
theorem mem_below_of_parent (hf : f.ids.Nodup) (hp : ∀ j ∈ f.ids, p ≠ some j) (hn : n ∈ f.nests)
    (hq : q ∈ f.records p) (hparent : q.parent = some n.region.id) :
    q.region ∈ n.below.regions := by
  have hmem := mem_ids_of_mem_nests hn
  obtain ⟨m, hm⟩ := exists_find?_of_mem_ids hmem
  have hmn : m = n := eq_of_id_eq hf (find?_mem hm).1 hn (find?_mem hm).2
  have hchild : q ∈ Record.childrenOf (f.records p) n.region.id :=
    Record.mem_childrenOf.mpr ⟨hq, hparent⟩
  rw [childrenOf_records hf (hp _ hmem) hm, hmn] at hchild
  obtain ⟨c, hc, rfl⟩ := List.mem_map.mp hchild
  exact List.mem_map_of_mem (roots_subset_nests _ c hc)

/-- **What lies below a nest** are the records from which the parents lead to it. -/
theorem mem_below_iff (hf : f.ids.Nodup) (hp : ∀ j ∈ f.ids, p ≠ some j) (hn : n ∈ f.nests)
    {r : Region} : r ∈ n.below.regions ↔
      ∃ q ∈ f.records p, q.region = r ∧ Record.Below (f.records p) n.region.id q := by
  constructor
  · intro hr
    rw [← map_region_records (some n.region.id)] at hr
    obtain ⟨q, hq, rfl⟩ := List.mem_map.mp hr
    have hsub := records_below_subset hn p
    refine ⟨q, hsub q hq, rfl, ?_⟩
    exact records_induction hsub (fun q _ h => .part h) (fun q _ r hr h hb => .step hr h hb) q hq
  · intro h
    obtain ⟨q, hq, rfl, hbelow⟩ := h
    induction hbelow with
    | part hparent => exact mem_below_of_parent hf hp hn hq hparent
    | step hr hparent _ ih =>
        obtain ⟨m, hm, hmr⟩ := List.mem_map.mp (ih hr)
        have hparent : _ = some m.region.id := hparent.trans (congrArg (some ·.id) hmr.symm)
        have hmf := nests_below_subset hn m hm
        obtain ⟨c, hc, hcq⟩ := List.mem_map.mp (mem_below_of_parent hf hp hmf hq hparent)
        exact List.mem_map.mpr ⟨c, nests_below_subset hm c hc, hcq⟩

end Forest

/-! ## 3. The tree of a listing -/

namespace Record

variable {all rs : List Record} {known : List RegionId} {r root : Record} {p x : RegionId}
  {l : List RegionId}

theorem root?_some_eq_ok_iff {first : Record} :
    root? known (some first) rs = .ok root ↔
      (∀ r ∈ rs, ∃ p ∈ known, r.parent = some p) ∧ first = root := by
  induction rs with
  | nil => simp [root?]
  | cons r rs ih =>
      rw [List.forall_mem_cons]
      cases hr : r.parent with
      | none => simp [root?, hr]
      | some p =>
          simp only [root?, hr]
          by_cases hk : p ∈ known
          · rw [if_pos (List.contains_iff_mem.mpr hk), ih]
            simp [hk]
          · rw [if_neg (fun h => hk (List.contains_iff_mem.mp h))]
            simp [hk]

/-- **The root** is the only record without a parent, and all parents are known. -/
theorem root?_eq_ok_iff : root? known none rs = .ok root ↔
    (∀ r ∈ rs, ∀ p, r.parent = some p → p ∈ known) ∧
      rs.filter (fun r => r.parent.isNone) = [root] := by
  induction rs with
  | nil => simp [root?]
  | cons r rs ih =>
      rw [List.forall_mem_cons]
      cases hr : r.parent with
      | none =>
          have hfilter : (∀ q ∈ rs, ∃ p ∈ known, q.parent = some p) ↔
              (∀ q ∈ rs, ∀ p, q.parent = some p → p ∈ known) ∧
                rs.filter (fun r => r.parent.isNone) = [] := by
            rw [List.filter_eq_nil_iff, ← forall₂_and]
            refine forall₂_congr fun q _ => ?_
            cases q.parent <;> simp
          simp only [root?, hr]
          rw [root?_some_eq_ok_iff, hfilter, List.filter_cons_of_pos (by simp [hr])]
          simp [and_assoc, and_comm]
      | some p =>
          simp only [root?, hr]
          rw [List.filter_cons_of_neg (by simp [hr])]
          by_cases hk : p ∈ known
          · rw [if_pos (List.contains_iff_mem.mpr hk), ih]
            simp [hk]
          · rw [if_neg (fun h => hk (List.contains_iff_mem.mp h))]
            simp [hk]

/-- What stands in the forest of some parts stands in the list, with the same parent. -/
theorem mem_of_mem_records_forest {levels : Nat} (hrs : ∀ r ∈ rs, r ∈ all ∧ r.parent = some p) :
    ∀ q ∈ (forest all levels rs).records (some p), q ∈ all := by
  induction levels generalizing p rs with
  | zero => exact fun q hq => absurd hq List.not_mem_nil
  | succ levels ihl =>
      induction rs with
      | nil => exact fun q hq => absurd hq List.not_mem_nil
      | cons r rs ih =>
          obtain ⟨hr, hp⟩ := hrs r List.mem_cons_self
          intro q hq
          rw [forest_cons, Forest.records_cons, List.mem_cons, List.mem_append] at hq
          rcases hq with rfl | hq | hq
          · exact hp ▸ hr
          · exact ihl (fun c hc => mem_childrenOf.mp hc) q hq
          · exact ih (fun c hc => hrs c (List.mem_cons_of_mem _ hc)) q hq

/-- Below each region of a forest stand the records that the list has below it, unless the levels
    are used up. -/
theorem below_of_mem_nests_forest {levels : Nat} {n : Nest}
    (hn : n ∈ (forest all levels rs).nests) :
    n.below = .nil ∨ ∃ m, n.below = forest all (m + 1) (childrenOf all n.region.id) := by
  induction levels generalizing rs with
  | zero => exact absurd hn List.not_mem_nil
  | succ levels ihl =>
      induction rs with
      | nil => exact absurd hn List.not_mem_nil
      | cons r rs ih =>
          rw [forest_cons, Forest.nests, List.mem_cons, List.mem_append] at hn
          rcases hn with rfl | hn | hn
          · cases levels with
            | zero => exact .inl rfl
            | succ m => exact .inr ⟨m, rfl⟩
          · exact ihl hn
          · exact ih hn

/-- **A forest is made again** of its records at the top, where the list has the parts of each of
    its regions and there are levels for all of them. -/
theorem forest_topRecords {f : Forest} {levels : Nat} {parent : Option RegionId}
    (hlevels : f.ids.length ≤ levels) (hparts : ∀ n ∈ f.nests,
      childrenOf all n.region.id = n.below.topRecords (some n.region.id)) :
    forest all levels (f.topRecords parent) = f := by
  induction f generalizing levels parent with
  | nil => cases levels <;> rfl
  | cons r below after ihb iha =>
      rw [Forest.ids_cons, List.length_cons, List.length_append] at hlevels
      obtain ⟨m, rfl⟩ : ∃ m, levels = m + 1 := Nat.exists_eq_succ_of_ne_zero (by omega)
      have hb : forest all m (below.topRecords (some r.id)) = below :=
        ihb (by omega) fun n hn =>
          hparts n (List.mem_cons_of_mem _ (List.mem_append_left _ hn))
      have ha : forest all (m + 1) (after.topRecords parent) = after :=
        iha (by omega) fun n hn =>
          hparts n (List.mem_cons_of_mem _ (List.mem_append_right _ hn))
      have hr : childrenOf all r.id = below.topRecords (some r.id) := hparts _ List.mem_cons_self
      show forest all (m + 1) (⟨r, parent⟩ :: after.topRecords parent) = _
      rw [forest_cons, ha]
      show Forest.cons r (forest all m (childrenOf all r.id)) after = _
      rw [hr, hb]

end Record

namespace Listing

variable {l : Listing} {d : Design}

theorem root_of_filter {root : Record} (h : l.records.filter (fun r => r.parent.isNone) = [root]) :
    root ∈ l.records ∧ root.parent = none := by
  have hmem : root ∈ l.records.filter fun r => r.parent.isNone := h ▸ List.mem_singleton_self root
  obtain ⟨hroot, hnone⟩ := List.mem_filter.mp hmem
  exact ⟨hroot, Option.isNone_iff_eq_none.mp hnone⟩

/-- **When a listing has a tree, and which one**: its numbers are distinct, its parents known, one
    record is without a parent, and the tree from that one on holds all numbers. -/
theorem tree_eq_ok_iff : l.tree = .ok d ↔
    (l.records.map Record.id).Nodup ∧
      (∀ r ∈ l.records, ∀ p, r.parent = some p → p ∈ l.records.map Record.id) ∧
        ∃ root, l.records.filter (fun r => r.parent.isNone) = [root] ∧ d = l.treeAt root ∧
          ∀ r ∈ l.records, r.id ∈ d.preorder := by
  have hreached : ∀ root : Record, Record.subtree l.records root.id = (l.treeAt root).preorder →
      (((l.records.map Record.id).filter fun id =>
        !(Record.subtree l.records root.id).contains id).min? = none ↔
          ∀ r ∈ l.records, r.id ∈ (l.treeAt root).preorder) := by
    intro root hwalk
    rw [hwalk, List.min?_eq_none_iff, List.filter_eq_nil_iff, List.forall_mem_map]
    refine forall₂_congr fun r _ => ?_
    rw [Bool.not_eq_true', Bool.not_eq_false, List.contains_iff_mem]
  unfold tree
  cases hr : Record.repeated? [] l.records with
  | some id =>
      refine iff_of_false (fun h => by cases h) fun h => ?_
      rw [Record.repeated?_nil_eq_none_iff.mpr h.1] at hr
      cases hr
  | none =>
      refine Attempt.bind_eq_ok_iff.trans ?_
      simp only [Record.root?_eq_ok_iff]
      have hall := Record.repeated?_nil_eq_none_iff.mp hr
      have hwalk : ∀ root, l.records.filter (fun r => r.parent.isNone) = [root] →
          Record.subtree l.records root.id = (l.treeAt root).preorder := fun root hroot =>
        subtree_root hall (root_of_filter hroot).1 (root_of_filter hroot).2
      constructor
      · intro h
        obtain ⟨root, ⟨hknown, hroot⟩, h⟩ := h
        split at h
        · cases h
        · next hm =>
          obtain rfl : l.treeAt root = d := Except.ok.inj h
          exact ⟨hall, hknown, root, hroot, rfl, (hreached root (hwalk root hroot)).mp hm⟩
      · intro h
        obtain ⟨_, hknown, root, hroot, rfl, hmem⟩ := h
        refine ⟨root, ⟨hknown, hroot⟩, ?_⟩
        split
        · next hm =>
          have hnone := (hreached root (hwalk root hroot)).mpr hmem
          exact absurd (hm.symm.trans hnone) (Option.some_ne_none _)
        · rfl

theorem name_of_tree (h : l.tree = .ok d) : d.name = l.name := by
  obtain ⟨-, -, root, -, rfl, -⟩ := tree_eq_ok_iff.mp h
  rfl

theorem arrays_of_tree (h : l.tree = .ok d) : d.arrays = l.arrays := by
  obtain ⟨-, -, root, -, rfl, -⟩ := tree_eq_ok_iff.mp h
  rfl

/-- The records of the tree from a record on are records of the listing. -/
theorem mem_of_mem_treeAt {root : Record} (hroot : root ∈ l.records) (hnone : root.parent = none) :
    ∀ q ∈ (l.treeAt root).listing.records, q ∈ l.records := by
  intro q hq
  have hq : q ∈ Record.mk root.region none ::
      ((l.treeAt root).below.records (some root.id) ++ []) :=
    hq
  rw [List.append_nil, List.mem_cons] at hq
  rcases hq with rfl | hq
  · exact hnone ▸ hroot
  · exact Record.mem_of_mem_records_forest (fun r hr => Record.mem_childrenOf.mp hr) q hq

/-- **None lost, doubled or changed**: the records of the tree are those of the listing. -/
theorem perm_of_tree (h : l.tree = .ok d) : d.listing.records.Perm l.records := by
  have hd : d.preorder.Nodup := nodup_of_tree h
  obtain ⟨hall, -, root, hfilter, rfl, hreached⟩ := tree_eq_ok_iff.mp h
  obtain ⟨hroot, hnone⟩ := root_of_filter hfilter
  have hids : ((l.treeAt root).listing.records.map Record.id) = (l.treeAt root).preorder :=
    Forest.map_id_records none _
  have hsub := mem_of_mem_treeAt hroot hnone
  have hnodup : (l.treeAt root).listing.records.Nodup := List.Nodup.of_map Record.id (hids ▸ hd)
  refine (List.perm_ext_iff_of_nodup hnodup (List.Nodup.of_map Record.id hall)).mpr fun q => ?_
  refine ⟨hsub q, fun hq => ?_⟩
  obtain ⟨q', hq', hid⟩ := List.mem_map.mp (hids ▸ hreached q hq)
  rwa [← Record.eq_of_id_eq hall (hsub q' hq') hq hid]

/-- Below each region of the tree stand the records that the listing has below it, unless the levels
    are used up. -/
theorem below_of_find?_treeAt {root : Record} {id : RegionId} {n : Nest}
    (hroot : root ∈ l.records) (hn : (l.treeAt root).forest.find? id = some n) :
    n.below = .nil ∨
      ∃ m, n.below = Record.forest l.records (m + 1) (Record.childrenOf l.records id) := by
  obtain ⟨hmem, hnid⟩ := Forest.find?_mem hn
  have hmem : n ∈ (l.treeAt root).top :: ((l.treeAt root).below.nests ++ []) := hmem
  rw [List.append_nil, List.mem_cons] at hmem
  rcases hmem with rfl | hmem
  · obtain rfl : root.id = id := hnid
    obtain ⟨m, hm⟩ : ∃ m, l.records.length = m + 1 :=
      Nat.exists_eq_succ_of_ne_zero fun h0 => by
        rw [List.length_eq_zero_iff.mp h0] at hroot
        exact absurd hroot List.not_mem_nil
    exact .inr ⟨m, congrArg (Record.forest l.records · _) hm⟩
  · exact hnid ▸ Record.below_of_mem_nests_forest hmem

/-- **Siblings keep their order.** -/
theorem childrenOf_of_tree (h : l.tree = .ok d) (id : RegionId) :
    Record.childrenOf d.listing.records id = Record.childrenOf l.records id := by
  have hd : d.preorder.Nodup := nodup_of_tree h
  have hperm := (perm_of_tree h).filter fun r => decide (r.parent = some id)
  have hempty (hnone : Record.childrenOf d.listing.records id = []) :
      Record.childrenOf d.listing.records id = Record.childrenOf l.records id := by
    have hperm : (Record.childrenOf l.records id).Perm [] := hnone ▸ hperm.symm
    rw [hnone, hperm.eq_nil]
  obtain ⟨-, -, root, hfilter, rfl, -⟩ := tree_eq_ok_iff.mp h
  by_cases hid : id ∈ (l.treeAt root).preorder
  · obtain ⟨n, hn⟩ := Forest.exists_find?_of_mem_ids hid
    have hparts : Record.childrenOf (l.treeAt root).listing.records id =
        n.below.topRecords (some id) := Forest.childrenOf_records hd (by simp) hn
    rcases below_of_find?_treeAt (root_of_filter hfilter).1 hn with hnil | ⟨m, hm⟩
    · -- the levels of a tree are never used up: the listing has nothing there either
      exact hempty (by rw [hparts, hnil]; rfl)
    · rw [hparts, hm, Forest.topRecords, Record.forest_roots, List.map_map]
      refine (List.map_congr_left fun q hq => ?_).trans (List.map_id _)
      exact congrArg (Record.mk q.region) (Record.mem_childrenOf.mp hq).2.symm
  · exact hempty (Forest.childrenOf_records_eq_nil (by simp) hid)

end Listing

/-- **A design is the tree of its own listing**, if its numbers are distinct. -/
theorem Design.tree_listing {d : Design} (hd : d.preorder.Nodup) : d.listing.tree = .ok d := by
  have hids : d.listing.records.map Record.id = d.preorder := Forest.map_id_records none _
  have hrecords : d.listing.records =
      ⟨d.root, none⟩ :: (d.below.records (some d.root.id) ++ []) := rfl
  have hparts : ∀ n ∈ d.forest.nests,
      Record.childrenOf d.listing.records n.region.id = n.below.topRecords (some n.region.id) := by
    intro n hn
    obtain ⟨m, hm⟩ := Forest.exists_find?_of_mem_ids (Forest.mem_ids_of_mem_nests hn)
    obtain ⟨hmem, hid⟩ := Forest.find?_mem hm
    obtain rfl := Forest.eq_of_id_eq hd hmem hn hid
    exact Forest.childrenOf_records hd nofun hm
  -- only the root is without a parent
  have hroot : d.listing.records.filter (fun r => r.parent.isNone) = [⟨d.root, none⟩] := by
    rw [hrecords, List.append_nil, List.filter_cons_of_pos rfl, List.filter_eq_nil_iff.mpr]
    intro q hq hnone
    rcases Forest.parent_of_mem_records hq with h | ⟨i, -, h⟩ <;> rw [h] at hnone <;> cases hnone
  have hbelow : Record.forest d.listing.records d.listing.records.length
      (Record.childrenOf d.listing.records d.root.id) = d.below := by
    rw [hparts ⟨d.root, d.below⟩ List.mem_cons_self]
    refine Record.forest_topRecords ?_ fun n hn => hparts n ?_
    · have hlength := congrArg List.length hids
      rw [List.length_map, d.preorder_eq, List.length_cons] at hlength
      show d.below.ids.length ≤ d.listing.records.length
      omega
    · exact List.mem_cons_of_mem _ (List.mem_append_left _ hn)
  refine Listing.tree_eq_ok_iff.mpr ⟨hids ▸ hd, fun r hr p hp => ?_, ⟨d.root, none⟩, hroot, ?_,
    fun r hr => hids ▸ List.mem_map_of_mem hr⟩
  · rcases Forest.parent_of_mem_records hr with h | ⟨i, hi, h⟩
    · exact absurd (h.symm.trans hp) nofun
    · rw [hids]
      exact Option.some.inj (h.symm.trans hp) ▸ hi
  · exact congrArg (fun f => (⟨d.name, d.root, f, d.arrays⟩ : Design)) hbelow.symm

/-- **A tree is the tree of its own listing.** -/
theorem Listing.tree_listing {l : Listing} {d : Design} (h : l.tree = .ok d) :
    d.listing.tree = .ok d := d.tree_listing (nodup_of_tree h)

end DesignSpace
