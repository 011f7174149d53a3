/-
  Subject:   LISTINGS WITH OTHER NUMBERS, AND IN ANOTHER ORDER. Numbers only tell regions apart, and
             the order of a listing only tells in which order the parts of each region stand.

  * `Design.renumber`, `Listing.renumber`: every number replaced, also where it stands for a parent
    or for the scope of an array;
  * `Listing.Reordered`: the same records, the parts of each region in the same order;
  * `Listing.tree_renumber`, `tree_of_reordered`: the tree of such a listing;
  * `Design.check_renumber`: other numbers break no rule;
  * `Listing.design_renumber`: **the design of a listing with other numbers and in another order**.
-/
import DesignSpace.Proofs.Forest.Renumber
import DesignSpace.Proofs.Design.Traversal
import DesignSpace.Proofs.Design.WellFormed

namespace DesignSpace

variable {g : RegionId → RegionId}

/-! ## 1. Designs -/

/-- An array whose scope has another number. -/
def ArrayDecl.renumber (g : RegionId → RegionId) (a : ArrayDecl) : ArrayDecl :=
  { a with scope := a.scope.map g }

/-- A design whose regions have other numbers. -/
def Design.renumber (g : RegionId → RegionId) (d : Design) : Design where
  name := d.name
  root := d.root.renumber g
  below := d.below.renumber g
  arrays := d.arrays.map (ArrayDecl.renumber g)

namespace Design

variable {d : Design} {n : Nest} {id : RegionId}

@[simp] theorem forest_renumber (d : Design) : (d.renumber g).forest = d.forest.renumber g := rfl

@[simp] theorem preorder_renumber (d : Design) : (d.renumber g).preorder = d.preorder.map g :=
  Forest.ids_renumber d.forest

theorem find?_renumber (hg : Set.InjOn g {i | i ∈ d.preorder}) (hid : id ∈ d.preorder) :
    (d.renumber g).find? (g id) = (d.find? id).map (Nest.renumber g) :=
  Forest.find?_renumber hg (fun _ hi => hi) hid

theorem above_renumber (hg : Set.InjOn g {i | i ∈ d.preorder}) (hid : id ∈ d.preorder) :
    (d.renumber g).above (g id) = (d.above id).map (Nest.renumber g) := by
  rw [above, forest_renumber, Forest.above_renumber hg (fun _ hi => hi) hid, above]
  cases d.forest.above id <;> rfl

/-- A region lies as deep as it lay. -/
theorem depth_renumber (hg : Set.InjOn g {i | i ∈ d.preorder}) (hid : id ∈ d.preorder) :
    (d.renumber g).depth (g id) = d.depth id := by
  rw [depth, above_renumber hg hid, List.length_map, depth]

@[simp] theorem scopeOf_renumber (d : Design) (a : ArrayDecl) :
    (d.renumber g).scopeOf (a.renumber g) = g (d.scopeOf a) := by
  unfold scopeOf ArrayDecl.renumber
  cases a.scope <;> rfl

/-- **Other numbers break no rule.** -/
theorem check_renumber (hg : Set.InjOn g {i | i ∈ d.preorder}) (hc : d.check = .ok ()) :
    (d.renumber g).check = .ok () := by
  obtain ⟨hnames, harrays, hnests⟩ := check_eq_ok_iff.mp hc
  have hnames' : ((d.renumber g).arrays.map ArrayDecl.name).Nodup := by
    rwa [renumber, List.map_map]
  refine check_eq_ok_iff.mpr ⟨hnames', fun a' ha' => ?_, fun n' hn' => ?_⟩
  · obtain ⟨a, ha, rfl⟩ := List.mem_map.mp ha'
    obtain ⟨n, hn, hscope⟩ := scope_of_check hc ha
    obtain ⟨hmem, hid⟩ := Forest.find?_mem hn
    refine ⟨(harrays a ha).1, ?_⟩
    rw [checkScope, scopeOf_renumber,
      find?_renumber hg (hid ▸ Forest.mem_ids_of_mem_nests hmem), hn]
    exact demand_eq_ok_iff.mpr hscope
  · rw [forest_renumber, Forest.nests_renumber] at hn'
    obtain ⟨n, hn, rfl⟩ := List.mem_map.mp hn'
    have hnest := hnests n hn
    cases hk : n.region.kind with
    | block b =>
        have hk' : (n.renumber g).region.kind = .block b := hk
        obtain ⟨hnil, haccesses⟩ := (checkNest_block_iff hk).mp hnest
        refine (checkNest_block_iff hk').mpr ⟨by simp [hnil], fun x hx => ?_⟩
        obtain ⟨a, ha, hname, hrank⟩ := (checkAccess_eq_ok_iff hnames).mp (haccesses x hx)
        exact (checkAccess_eq_ok_iff hnames').mpr
          ⟨a.renumber g, List.mem_map_of_mem ha, hname, hrank⟩
    | loop l =>
        have hk' : (n.renumber g).region.kind = .loop l := hk
        rw [checkNest_loop_iff hk']
        simpa using (checkNest_loop_iff hk).mp hnest
    | func f =>
        have hk' : (n.renumber g).region.kind = .func f := hk
        rw [checkNest_func_iff hk']
        simpa using (checkNest_func_iff hk).mp hnest
    | dataflow =>
        have hk' : (n.renumber g).region.kind = .dataflow := hk
        unfold checkNest
        simp only [hk']

end Design

/-! ## 2. Listings with other numbers -/

/-- A record with another number, and another one of its parent. -/
def Record.renumber (g : RegionId → RegionId) (r : Record) : Record where
  region := r.region.renumber g
  parent := r.parent.map g

/-- A listing whose regions have other numbers. -/
def Listing.renumber (g : RegionId → RegionId) (l : Listing) : Listing where
  name := l.name
  records := l.records.map (Record.renumber g)
  arrays := l.arrays.map (ArrayDecl.renumber g)

namespace Record

variable {s : Set RegionId} {all rs : List Record} {p : RegionId}

/-- The numbers of some records, and of their parents, are among those of a set. -/
def Among (s : Set RegionId) (all : List Record) : Prop :=
  ∀ r ∈ all, r.id ∈ s ∧ ∀ p, r.parent = some p → p ∈ s

/-- A region has the parts that it had. -/
theorem childrenOf_renumber (hg : Set.InjOn g s) (hall : Among s all) (hp : p ∈ s) :
    childrenOf (all.map (renumber g)) (g p) = (childrenOf all p).map (renumber g) := by
  unfold childrenOf
  rw [List.filter_map]
  refine congrArg (List.map _) (List.filter_congr fun r hr => ?_)
  cases hparent : r.parent with
  | none => simp [renumber, hparent]
  | some q => simp [renumber, hparent, hg.eq_iff ((hall r hr).2 q hparent) hp]

theorem forest_renumber (hg : Set.InjOn g s) (hall : Among s all) (levels : Nat)
    (hrs : ∀ r ∈ rs, r.id ∈ s) :
    forest (all.map (renumber g)) levels (rs.map (renumber g)) =
      (forest all levels rs).renumber g := by
  induction levels generalizing rs with
  | zero => rfl
  | succ levels ihl =>
      induction rs with
      | nil => rfl
      | cons r rs ih =>
          obtain ⟨hr, hrest⟩ := List.forall_mem_cons.mp hrs
          have hparts : ∀ q ∈ childrenOf all r.id, q.id ∈ s := fun q hq =>
            (hall q (mem_childrenOf.mp hq).1).1
          rw [List.map_cons, forest_cons, ih hrest, forest_cons, Forest.renumber_cons,
            ← ihl hparts, ← childrenOf_renumber hg hall hr]
          rfl

end Record

namespace Listing

variable {l l' : Listing} {d : Design}

theorem map_id_renumber (l : Listing) :
    (l.renumber g).records.map Record.id = (l.records.map Record.id).map g := by
  rw [renumber, List.map_map, List.map_map]
  rfl

/-- **The tree of a listing with other numbers** is the tree with other numbers. -/
theorem tree_renumber (hg : Set.InjOn g {i | i ∈ l.records.map Record.id}) (h : l.tree = .ok d) :
    (l.renumber g).tree = .ok (d.renumber g) := by
  obtain ⟨hall, hknown, root, hfilter, rfl, hreached⟩ := tree_eq_ok_iff.mp h
  obtain ⟨hroot, -⟩ := root_of_filter hfilter
  have hamong : Record.Among {i | i ∈ l.records.map Record.id} l.records := fun r hr =>
    ⟨List.mem_map_of_mem hr, hknown r hr⟩
  have htree : (l.treeAt root).renumber g = (l.renumber g).treeAt (root.renumber g) := by
    have hparts : ∀ r ∈ Record.childrenOf l.records root.id, r.id ∈ l.records.map Record.id :=
      fun r hr => List.mem_map_of_mem (Record.mem_childrenOf.mp hr).1
    have hbelow := Record.forest_renumber hg hamong l.records.length hparts
    rw [← Record.childrenOf_renumber hg hamong (List.mem_map_of_mem hroot)] at hbelow
    unfold treeAt Design.renumber
    rw [← hbelow, renumber, List.length_map]
    rfl
  refine tree_eq_ok_iff.mpr ⟨?_, fun r' hr' p' hp' => ?_, root.renumber g, ?_, htree,
    fun r' hr' => ?_⟩
  · rw [map_id_renumber]
    exact hall.map_on hg
  · obtain ⟨r, hr, rfl⟩ := List.mem_map.mp hr'
    obtain ⟨p, hp, rfl⟩ := Option.map_eq_some_iff.mp hp'
    rw [map_id_renumber]
    exact List.mem_map_of_mem (hknown r hr p hp)
  · have hnone : (fun r : Record => r.parent.isNone) ∘ Record.renumber g =
        fun r => r.parent.isNone := by
      funext r
      exact Option.isNone_map
    rw [renumber, List.filter_map, hnone, hfilter]
    rfl
  · obtain ⟨r, hr, rfl⟩ := List.mem_map.mp hr'
    rw [Design.preorder_renumber]
    exact List.mem_map_of_mem (hreached r hr)

/-! ## 3. Listings in another order -/

/-- **The same listing in another order**: the parts of each region stand in the order in which they
    stood. -/
structure Reordered (l l' : Listing) : Prop where
  name : l'.name = l.name
  arrays : l'.arrays = l.arrays
  records : l'.records.Perm l.records
  parts : ∀ r ∈ l.records, Record.childrenOf l'.records r.id = Record.childrenOf l.records r.id

theorem forest_of_reordered (h : Reordered l l') {levels : Nat} {rs : List Record}
    (hrs : ∀ r ∈ rs, r ∈ l.records) :
    Record.forest l'.records levels rs = Record.forest l.records levels rs := by
  induction levels generalizing rs with
  | zero => rfl
  | succ levels ihl =>
      induction rs with
      | nil => rfl
      | cons r rs ih =>
          obtain ⟨hr, hrest⟩ := List.forall_mem_cons.mp hrs
          have hparts : ∀ q ∈ Record.childrenOf l.records r.id, q ∈ l.records := fun q hq =>
            (Record.mem_childrenOf.mp hq).1
          rw [Record.forest_cons, Record.forest_cons, ih hrest, h.parts r hr, ihl hparts]

/-- **The tree of a listing in another order** is the same tree. -/
theorem tree_of_reordered (h : Reordered l l') (ht : l.tree = .ok d) : l'.tree = .ok d := by
  obtain ⟨hall, hknown, root, hfilter, rfl, hreached⟩ := tree_eq_ok_iff.mp ht
  obtain ⟨hroot, -⟩ := root_of_filter hfilter
  have hids : (l'.records.map Record.id).Perm (l.records.map Record.id) := h.records.map _
  refine tree_eq_ok_iff.mpr ⟨hids.nodup_iff.mpr hall, fun r hr p hp => ?_, root, ?_, ?_,
    fun r hr => hreached r (h.records.mem_iff.mp hr)⟩
  · exact hids.mem_iff.mpr (hknown r (h.records.mem_iff.mp hr) p hp)
  · have hperm := h.records.filter fun r => r.parent.isNone
    rw [hfilter] at hperm
    exact List.perm_singleton.mp hperm
  · have hparts : ∀ q ∈ Record.childrenOf l.records root.id, q ∈ l.records := fun q hq =>
      (Record.mem_childrenOf.mp hq).1
    unfold treeAt
    rw [h.name, h.arrays, h.records.length_eq, h.parts root hroot, forest_of_reordered h hparts]

/-- **A listing with other numbers and in another order is accepted**, and its design is that of the
    listing, with the other numbers. -/
theorem design_renumber (hg : Set.InjOn g {i | i ∈ l.records.map Record.id})
    (hd : l.design = .ok d) (h : Reordered (l.renumber g) l') :
    l'.design = .ok (d.renumber g) := by
  obtain ⟨htree, hc⟩ := tree_of_design hd
  have hpreorder : Set.InjOn g {i | i ∈ d.preorder} :=
    hg.mono fun _ hi => (perm_preorder htree).mem_iff.mp hi
  have htree' := tree_of_reordered h (tree_renumber hg htree)
  have hc' := Design.check_renumber hpreorder hc
  exact Attempt.bind_eq_ok_iff.mpr ⟨_, htree', Attempt.bind_eq_ok_iff.mpr ⟨(), hc', rfl⟩⟩

end Listing

end DesignSpace
