/-
  Subject:   BLOCKS THAT WAIT FOR THEIR COPIES. In a flat body the inner loops are laid out
             completely, and a loop that carries a reduction makes the copies of the blocks in it
             wait for each other: of all of them, also where only one of them carries it.

  * `Forest.bodies`, `Nest.between`: the blocks of a forest, and the nests between a nest and a
    region in it;
  * `Forest.flatten_eq`: each block of a flat body waits along the nests around it;
  * `CostModel.ownDepth`, `sharedDepth`: the depth where each block waits for its own reductions,
    and where it waits for those of the blocks beside it too;
  * `CostModel.depth_flatBody`: **a flat body has the second depth**;
  * `CostModel.ownDepth_le`, `ownDepth_eq_iff`: that is no less than the first one, and where the
    two are the same;
  * `CostModel.depth_nest`: the same of every design that is accepted;
  * `Accompanied.neighbour_chained`: a block that waits for the reduction of its neighbour.
-/
import Mathlib.Algebra.Order.BigOperators.Group.List
import Mathlib.Algebra.Order.BigOperators.GroupWithZero.List
import Mathlib.Algebra.Order.Ring.Nat
import DesignSpace.Proofs.Design.WellFormed
import DesignSpace.Proofs.Estimate.Copies
import DesignSpace.Proofs.Stages

namespace DesignSpace

/-! ## 1. Sums and products -/

section Filtered

variable {α : Type} {w : α → Nat} {p q : α → Bool} {xs : List α}

theorem prod_filter_pos (hw : ∀ x ∈ xs, 0 < w x) : 0 < ((xs.filter p).map w).prod := by
  refine List.prod_pos fun k hk => ?_
  obtain ⟨x, hx, rfl⟩ := List.mem_map.mp hk
  exact hw x (List.mem_of_mem_filter hx)

theorem prod_filter_le (hw : ∀ x ∈ xs, 0 < w x) (hpq : ∀ x ∈ xs, p x = true → q x = true) :
    ((xs.filter p).map w).prod ≤ ((xs.filter q).map w).prod := by
  induction xs with
  | nil => exact Nat.le_refl _
  | cons x xs ih =>
      obtain ⟨hwx, hwxs⟩ := List.forall_mem_cons.mp hw
      obtain ⟨hx, hxs⟩ := List.forall_mem_cons.mp hpq
      have hle := ih hwxs hxs
      rw [List.filter_cons, List.filter_cons]
      by_cases hp : p x = true
      · rw [if_pos hp, if_pos (hx hp), List.map_cons, List.map_cons, List.prod_cons, List.prod_cons]
        exact Nat.mul_le_mul_left _ hle
      rw [if_neg hp]
      by_cases hq : q x = true
      · rw [if_pos hq, List.map_cons, List.prod_cons]
        exact Nat.le_trans hle (Nat.le_mul_of_pos_left _ hwx)
      · rw [if_neg hq]
        exact hle

/-- Factors that are left out make no difference exactly if they are one. -/
theorem prod_filter_eq_iff (hw : ∀ x ∈ xs, 0 < w x) (hpq : ∀ x ∈ xs, p x = true → q x = true) :
    ((xs.filter p).map w).prod = ((xs.filter q).map w).prod ↔
      ∀ x ∈ xs, w x ≠ 1 → q x = true → p x = true := by
  induction xs with
  | nil => exact iff_of_true rfl nofun
  | cons x xs ih =>
      obtain ⟨hwx, hwxs⟩ := List.forall_mem_cons.mp hw
      obtain ⟨hx, hxs⟩ := List.forall_mem_cons.mp hpq
      rw [List.forall_mem_cons, ← ih hwxs hxs, List.filter_cons, List.filter_cons]
      by_cases hp : p x = true
      · rw [if_pos hp, if_pos (hx hp), List.map_cons, List.map_cons, List.prod_cons, List.prod_cons,
          Nat.mul_right_inj (Nat.ne_of_gt hwx)]
        exact (and_iff_right fun _ _ => hp).symm
      rw [if_neg hp]
      by_cases hq : q x = true
      · rw [if_pos hq, List.map_cons, List.prod_cons]
        have hle := prod_filter_le hwxs hxs
        have hpos := prod_filter_pos (p := q) hwxs
        by_cases hone : w x = 1
        · rw [hone, Nat.one_mul]
          exact (and_iff_right fun h => absurd rfl h).symm
        · -- a factor of two at least is missing
          have htwice : 2 * ((xs.filter q).map w).prod ≤ w x * ((xs.filter q).map w).prod :=
            Nat.mul_le_mul_right _ (by omega)
          exact iff_of_false (by omega) fun h => hp (h.1 hone hq)
      · rw [if_neg hq]
        exact (and_iff_right fun _ h => absurd h hq).symm

end Filtered

namespace Count

variable {α : Type} {f g : α → Nat} {xs : List α} {a : Nat} {ys zs : List Nat}

theorem sum_map_le (hfg : ∀ x ∈ xs, f x ≤ g x) : sum (xs.map f) ≤ sum (xs.map g) := by
  have hle := List.sum_le_sum hfg
  rw [sum_eq, sum_eq]
  omega

/-- Sums of which one has the smaller parts are equal at the limit, or if all parts are. -/
theorem sum_map_eq_iff (hfg : ∀ x ∈ xs, f x ≤ g x) : sum (xs.map f) = sum (xs.map g) ↔
    sum (xs.map f) = limit ∨ ∀ x ∈ xs, f x = g x := by
  have hle := List.sum_le_sum hfg
  rw [sum_eq, sum_eq]
  constructor
  · intro h
    by_cases hlimit : limit ≤ (xs.map f).sum
    · exact .inl (Nat.min_eq_right hlimit)
    · refine .inr fun x hx => Nat.le_antisymm (hfg x hx) (Nat.le_of_not_lt fun hlt => ?_)
      have := List.sum_lt_sum f g hfg ⟨x, hx, hlt⟩
      omega
  · rintro (h | h)
    · omega
    · rw [List.map_congr_left h]

theorem le_sum_of_mem (ha : a ∈ ys) : min a limit ≤ sum ys := by
  have hle : a ≤ ys.sum := List.single_le_sum (fun _ _ => Nat.zero_le _) a ha
  rw [sum_eq]
  omega

theorem mul_product_eq_zero (h : 0 < ys.prod) (hzero : mul a (product ys) = 0) : a = 0 := by
  have hpos : 0 < product ys := by
    rw [product_eq]
    exact Nat.lt_min.mpr ⟨h, by decide⟩
  have hlimit : 0 < limit := by decide
  unfold mul at hzero
  exact (Nat.mul_eq_zero.mp (by omega)).resolve_right (Nat.ne_of_gt hpos)

theorem mul_product_le (h : ys.prod ≤ zs.prod) : mul a (product ys) ≤ mul a (product zs) := by
  have hle : product ys ≤ product zs := by
    rw [product_eq, product_eq]
    omega
  have hmul : a * product ys ≤ a * product zs := Nat.mul_le_mul_left a hle
  unfold mul
  omega

theorem mul_product_eq_iff (h : ys.prod ≤ zs.prod) (hlimit : mul a (product ys) ≠ limit) :
    mul a (product ys) = mul a (product zs) ↔ (a ≠ 0 → ys.prod = zs.prod) := by
  constructor
  · intro heq ha
    have hlt : a * product ys < limit := by
      unfold mul at hlimit
      omega
    have hsame : a * product ys = a * product zs := by
      unfold mul at heq
      omega
    have hproduct : product ys = product zs :=
      Nat.eq_of_mul_eq_mul_left (Nat.pos_of_ne_zero ha) hsame
    have hself : product ys ≤ a * product ys := Nat.le_mul_of_pos_left _ (Nat.pos_of_ne_zero ha)
    rw [product_eq, product_eq] at hproduct
    rw [product_eq] at hself hlt
    omega
  · intro heq
    by_cases ha : a = 0
    · rw [ha, mul, mul, Nat.zero_mul, Nat.zero_mul]
    · rw [product_eq, product_eq, heq ha]

end Count

/-! ## 2. Loops that carry reductions -/

namespace Nest

/-- The nests between a nest and a region in it, the outermost first. -/
def between (n : Nest) (id : RegionId) : List Nest := (n.below.above id).getD []

/-- How often a loop runs that is laid out completely. -/
def trip (n : Nest) : Nat := (n.region.loop?.bind fun l => l.trip.bounded).getD 1

/-- Whether a loop carries a reduction in some accesses. -/
def carries (n : Nest) (accesses : List Access) : Bool :=
  n.region.loop?.any fun l => carriesReduction accesses l.iv

theorem trip_pos (n : Nest) : 0 < n.trip := by
  unfold trip
  cases hb : n.region.loop?.bind fun l => l.trip.bounded with
  | none => exact Nat.one_pos
  | some k =>
      obtain ⟨l, -, hk⟩ := Option.bind_eq_some_iff.mp hb
      exact Trip.pos_of_bounded hk

end Nest

theorem carriesReduction_mono {xs ys : List Access} (h : ∀ a ∈ xs, a ∈ ys) {iv : String}
    (hx : carriesReduction xs iv = true) : carriesReduction ys iv = true := by
  unfold carriesReduction at hx ⊢
  obtain ⟨w, hw, hreduces⟩ := List.any_eq_true.mp hx
  obtain ⟨hwrite, hread⟩ := Bool.and_eq_true_iff.mp hreduces
  obtain ⟨r, hr, hsame⟩ := List.any_eq_true.mp hread
  exact List.any_eq_true.mpr
    ⟨w, h w hw, Bool.and_eq_true_iff.mpr ⟨hwrite, List.any_eq_true.mpr ⟨r, h r hr, hsame⟩⟩⟩

theorem Nest.carries_mono {n : Nest} {xs ys : List Access} (h : ∀ a ∈ xs, a ∈ ys)
    (hx : n.carries xs = true) : n.carries ys = true := by
  unfold carries at hx ⊢
  obtain ⟨l, hl, hcarries⟩ := (Option.any_eq_true _ _).mp hx
  exact (Option.any_eq_true _ _).mpr ⟨l, hl, carriesReduction_mono h hcarries⟩

/-! ## 3. Flat bodies -/

namespace Forest

variable {f : Forest} {c : Context} {chain : Nat} {x : RegionId × Block}

/-- The blocks of a forest by the numbers of their regions, in the order of the forest. -/
def bodies (f : Forest) : List (RegionId × Block) :=
  f.regions.filterMap fun r => r.block?.map fun b => (r.id, b)

theorem bodies_cons (r : Region) (below after : Forest) :
    bodies (cons r below after) =
      (r.block?.map fun b => (r.id, b)).toList ++ (below.bodies ++ after.bodies) := by
  rw [bodies, regions_cons, List.filterMap_cons, List.filterMap_append]
  cases r.block? <;> rfl

theorem mem_bodies_iff : x ∈ f.bodies ↔ ∃ r ∈ f.regions, r.id = x.1 ∧ r.block? = some x.2 := by
  rw [bodies, List.mem_filterMap]
  refine exists_congr fun r => and_congr_right fun _ => ?_
  rw [Option.map_eq_some_iff]
  constructor
  · rintro ⟨b, hb, rfl⟩
    exact ⟨rfl, hb⟩
  · rintro ⟨hid, hb⟩
    exact ⟨x.2, hb, by rw [hid]⟩

theorem mem_ids_of_mem_bodies (h : x ∈ f.bodies) : x.1 ∈ f.ids := by
  obtain ⟨r, hr, hid, -⟩ := mem_bodies_iff.mp h
  exact hid ▸ List.mem_map_of_mem hr

/-- How many copies wait for each other along a path, with a chain of some length before it: a loop
    that carries a reduction makes it longer by its trip count. -/
def chainAlong (chain : Nat) (path : List Nest) : Nat :=
  ((path.filter fun k => k.carries k.accesses).map Nest.trip).foldl Count.mul chain

theorem chainAlong_cons (n : Nest) (path : List Nest) : chainAlong chain (n :: path) =
    chainAlong (if n.carries n.accesses then Count.mul chain n.trip else chain) path := by
  unfold chainAlong
  rw [List.filter_cons]
  split <;> rfl

/-- What lies below a region that is no block has the chain of that region. -/
theorem exists_flatten_cons {r : Region} (hr : r.block? = none) (below after : Forest)
    (c : Context) (chain : Nat) :
    ∃ inner, (cons r below after).flatten c chain =
      below.flatten inner (chainAlong chain [⟨r, below⟩]) ++ after.flatten c chain := by
  rw [chainAlong_cons, Nest.carries, Nest.trip, flatten]
  cases hk : r.kind with
  | block b =>
      rw [Region.block?, hk] at hr
      cases hr
  | loop l =>
      refine ⟨c.withFactor l.iv (l.trip.bounded.getD 1), ?_⟩
      rw [Region.loop?, hk]
      rfl
  | func f =>
      refine ⟨c, ?_⟩
      rw [Region.loop?, hk]
      rfl
  | dataflow =>
      refine ⟨c, ?_⟩
      rw [Region.loop?, hk]
      rfl

/-- **Each block of a flat body** waits along the nests around it. -/
theorem flatten_eq (hf : f.ids.Nodup) (hleafy : f.Leafy) (c : Context) (chain : Nat) :
    (f.flatten c chain).map (fun b => (b.body, b.chain)) =
      f.bodies.map fun x => (x.2, chainAlong chain ((f.above x.1).getD [])) := by
  induction f generalizing c chain with
  | nil => rfl
  | cons r below after ihb iha =>
      have ap := apart_of_nodup hf
      have hrest : (after.flatten c chain).map (fun b => (b.body, b.chain)) =
          after.bodies.map fun x =>
            (x.2, chainAlong chain ((above x.1 (cons r below after)).getD [])) := by
        refine (iha ap.nodupAfter hleafy.ofAfter c chain).trans (List.map_congr_left fun x hx => ?_)
        obtain ⟨path, hpath⟩ := exists_above_of_mem_ids (mem_ids_of_mem_bodies hx)
        rw [above_of_after ap hpath, hpath]
      rw [bodies_cons, List.map_append, List.map_append, ← hrest]
      cases hr : r.block? with
      | some b =>
          -- nothing is below a block, and nothing around it lies in the forest
          obtain rfl : below = .nil := hleafy.leaf (by rw [hr]; rfl)
          have hself : above r.id (cons r .nil after) = some [] := if_pos rfl
          rw [flatten, Region.block?_eq_some_iff.mp hr]
          show (b, chain) :: _ =
            (b, chainAlong chain ((above r.id (cons r .nil after)).getD [])) :: _
          rw [hself]
          rfl
      | none =>
          obtain ⟨inner, hflatten⟩ := exists_flatten_cons hr below after c chain
          rw [hflatten, List.map_append, ihb ap.nodupBelow hleafy.ofBelow]
          refine congrArg (· ++ _) (List.map_congr_left fun x hx => ?_)
          obtain ⟨path, hpath⟩ := exists_above_of_mem_ids (mem_ids_of_mem_bodies hx)
          rw [above_of_below ap hpath, hpath]
          show (x.2, chainAlong _ path) = (x.2, chainAlong chain (⟨r, below⟩ :: path))
          rw [chainAlong_cons, chainAlong_cons]
          rfl

end Forest

/-- What a block accesses is accessed in all nests around it. -/
theorem Nest.accesses_of_between {n k : Nest} {x : RegionId × Block} (hn : n.below.ids.Nodup)
    (hx : x ∈ n.below.bodies) (hk : k ∈ n.between x.1) : ∀ a ∈ x.2.accesses, a ∈ k.accesses := by
  obtain ⟨r, hr, hid, hb⟩ := Forest.mem_bodies_iff.mp hx
  obtain ⟨path, hpath⟩ := Forest.exists_above_of_mem_ids (Forest.mem_ids_of_mem_bodies hx)
  have hbetween : n.between x.1 = path := congrArg (fun o => o.getD []) hpath
  obtain ⟨hmem, hin⟩ := Forest.mem_of_mem_above hpath (hbetween ▸ hk)
  -- the region of the block is the one of its number below the nest
  obtain ⟨q, hq, hqid⟩ := List.mem_map.mp hin
  have hbelow : q ∈ n.below.regions := by
    obtain ⟨i, hi, rfl⟩ := List.mem_map.mp hq
    exact List.mem_map_of_mem (Forest.nests_below_subset hmem i hi)
  obtain rfl : q = r := List.inj_on_of_nodup_map hn hbelow hr (hqid.trans hid.symm)
  intro a ha
  rw [Nest.accesses_eq]
  refine List.mem_append_right _ (List.mem_flatMap.mpr ⟨q, hq, ?_⟩)
  rw [Region.accesses, Region.block?_eq_some_iff.mp hb]
  exact ha

/-! ## 4. Depths -/

namespace CostModel

variable {m : CostModel} {arrays : List ArrayDecl} {c : Context} {n : Nest} {p q : Nest → Bool}
  {x : RegionId × Block}

/-- The cycles of a block in the flat body of a loop, as many times as the loops between them run
    that count. -/
def chainedCycles (m : CostModel) (arrays : List ArrayDecl) (c : Context) (n : Nest)
    (counts : Nest → Bool) (x : RegionId × Block) : Nat :=
  Count.mul (m.straightLine arrays c x.2)
    (Count.product (((n.between x.1).filter counts).map Nest.trip))

/-- The cycles of a block where the loops count that carry a reduction in the block itself. -/
def ownCycles (m : CostModel) (arrays : List ArrayDecl) (c : Context) (n : Nest)
    (x : RegionId × Block) : Nat :=
  m.chainedCycles arrays c n (fun k => k.carries x.2.accesses) x

/-- The cycles of a block where the loops count that carry a reduction in their blocks together. -/
def sharedCycles (m : CostModel) (arrays : List ArrayDecl) (c : Context) (n : Nest)
    (x : RegionId × Block) : Nat :=
  m.chainedCycles arrays c n (fun k => k.carries k.accesses) x

/-- The depth of the flat body of a loop whose blocks wait for their own reductions. -/
def ownDepth (m : CostModel) (arrays : List ArrayDecl) (c : Context) (n : Nest) : Nat :=
  max (Count.sum (n.below.bodies.map (m.ownCycles arrays c n))) 1

/-- The depth of the flat body of a loop whose blocks wait for the reductions of all blocks. -/
def sharedDepth (m : CostModel) (arrays : List ArrayDecl) (c : Context) (n : Nest) : Nat :=
  max (Count.sum (n.below.bodies.map (m.sharedCycles arrays c n))) 1

/-- **The loops that count for a block** are those that carry a reduction in their blocks
    together. -/
theorem depth_flatBody (hn : n.below.ids.Nodup) (hleafy : n.below.Leafy) (iv : String) :
    (m.flatBody arrays c iv n.below).depth = m.sharedDepth arrays c n := by
  have hblocks := congrArg (List.map fun e : Block × Nat =>
    Count.mul (m.straightLine arrays c e.1) e.2) (Forest.flatten_eq hn hleafy c 1)
  rw [List.map_map, List.map_map] at hblocks
  exact congrArg (fun cycles => max (Count.sum cycles) 1) hblocks

/-- A loop that carries a reduction in a block carries it in its blocks together. -/
theorem carries_of_own (hn : n.below.ids.Nodup) (hx : x ∈ n.below.bodies) :
    ∀ k ∈ n.between x.1, k.carries x.2.accesses = true → k.carries k.accesses = true :=
  fun _ hk => Nest.carries_mono (Nest.accesses_of_between hn hx hk)

theorem ownCycles_le (hn : n.below.ids.Nodup) (hx : x ∈ n.below.bodies) :
    m.ownCycles arrays c n x ≤ m.sharedCycles arrays c n x :=
  Count.mul_product_le (prod_filter_le (fun k _ => k.trip_pos) (carries_of_own hn hx))

theorem ownCycles_eq_iff (hn : n.below.ids.Nodup) (hx : x ∈ n.below.bodies)
    (hlimit : m.ownCycles arrays c n x ≠ Count.limit) :
    m.ownCycles arrays c n x = m.sharedCycles arrays c n x ↔
      (m.straightLine arrays c x.2 ≠ 0 → ∀ k ∈ n.between x.1, k.trip ≠ 1 →
        k.carries k.accesses = true → k.carries x.2.accesses = true) := by
  have hw : ∀ k ∈ n.between x.1, 0 < k.trip := fun k _ => k.trip_pos
  rw [← prod_filter_eq_iff hw (carries_of_own hn hx)]
  exact Count.mul_product_eq_iff (prod_filter_le hw (carries_of_own hn hx)) hlimit

/-- A block without chained cycles takes none. -/
theorem straightLine_of_ownCycles (h : m.ownCycles arrays c n x = 0) :
    m.straightLine arrays c x.2 = 0 :=
  Count.mul_product_eq_zero (prod_filter_pos fun k _ => k.trip_pos) h

/-- **No block waits less** than it would for its own reductions. -/
theorem ownDepth_le (hn : n.below.ids.Nodup) :
    m.ownDepth arrays c n ≤ m.sharedDepth arrays c n :=
  max_le_max (Count.sum_map_le fun _ hx => ownCycles_le hn hx) (Nat.le_refl 1)

/-- **Where no block waits longer**: the depths are the same at the limit, or if each block that
    takes cycles carries a reduction itself across each loop between that carries one and runs more
    than once. -/
theorem ownDepth_eq_iff (hn : n.below.ids.Nodup) :
    m.ownDepth arrays c n = m.sharedDepth arrays c n ↔
      m.ownDepth arrays c n = Count.limit ∨
        ∀ x ∈ n.below.bodies, m.straightLine arrays c x.2 ≠ 0 →
          ∀ k ∈ n.between x.1, k.trip ≠ 1 → k.carries k.accesses = true →
            k.carries x.2.accesses = true := by
  have hle : ∀ x ∈ n.below.bodies, m.ownCycles arrays c n x ≤ m.sharedCycles arrays c n x :=
    fun x hx => ownCycles_le hn hx
  have hsum := Count.sum_map_le hle
  have hpart : ∀ x ∈ n.below.bodies, min (m.ownCycles arrays c n x) Count.limit ≤
      Count.sum (n.below.bodies.map (m.ownCycles arrays c n)) :=
    fun x hx => Count.le_sum_of_mem (List.mem_map_of_mem hx)
  have hone : 1 < Count.limit := by decide
  by_cases hzero : Count.sum (n.below.bodies.map (m.ownCycles arrays c n)) = 0
  · -- no block takes any cycles
    have hnone : ∀ x ∈ n.below.bodies, m.straightLine arrays c x.2 = 0 := by
      intro x hx
      have hnothing : m.ownCycles arrays c n x = 0 := by
        have := hpart x hx
        omega
      exact straightLine_of_ownCycles hnothing
    refine iff_of_true ?_ (.inr fun x hx h => absurd (hnone x hx) h)
    refine congrArg (fun cycles => max (Count.sum cycles) 1) (List.map_congr_left fun x hx => ?_)
    rw [ownCycles, sharedCycles, chainedCycles, chainedCycles, hnone x hx, Count.mul, Count.mul,
      Nat.zero_mul, Nat.zero_mul]
  · have hown : m.ownDepth arrays c n =
        Count.sum (n.below.bodies.map (m.ownCycles arrays c n)) := Nat.max_eq_left (by omega)
    have hshared : m.sharedDepth arrays c n =
        Count.sum (n.below.bodies.map (m.sharedCycles arrays c n)) := Nat.max_eq_left (by omega)
    rw [hown, hshared, Count.sum_map_eq_iff hle]
    refine or_congr_right' fun hlimit => forall₂_congr fun x hx => ownCycles_eq_iff hn hx ?_
    have := hpart x hx
    have := Count.sum_le_limit (n.below.bodies.map (m.ownCycles arrays c n))
    omega

end CostModel

/-! ## 5. Designs that are accepted -/

/-- **Blocks that wait for reductions of others.** In a design that is accepted, and in any context,
    the depth of the flat body of a nest is the sum of the cycles of its blocks, each times the trip
    counts of those loops between that carry a reduction in their blocks together. That is no less
    than the depth where each block waits for its own reductions. It is the same depth exactly at
    the limit, or where each block that takes cycles carries a reduction itself across each loop
    between that carries one and runs more than once. -/
theorem CostModel.depth_nest {l : Listing} {d : Design} (hd : l.design = .ok d) {id : RegionId}
    {n : Nest} (hn : d.find? id = some n) (m : CostModel) (c : Context) (iv : String) :
    (m.flatBody d.arrays c iv n.below).depth = m.sharedDepth d.arrays c n ∧
      m.ownDepth d.arrays c n ≤ (m.flatBody d.arrays c iv n.below).depth ∧
      ((m.flatBody d.arrays c iv n.below).depth = m.ownDepth d.arrays c n ↔
        m.ownDepth d.arrays c n = Count.limit ∨
          ∀ x ∈ n.below.bodies, m.straightLine d.arrays c x.2 ≠ 0 →
            ∀ k ∈ n.between x.1, k.trip ≠ 1 → k.carries k.accesses = true →
              k.carries x.2.accesses = true) := by
  obtain ⟨hmem, -⟩ := Forest.find?_mem hn
  have hdistinct := Forest.nodup_below (Listing.nodup_of_design hd) hmem
  have hleafy := (Design.leafy_of_check (Listing.tree_of_design hd).2).ofNest hmem
  rw [depth_flatBody hdistinct hleafy]
  exact ⟨rfl, ownDepth_le hdistinct, eq_comm.trans (ownDepth_eq_iff hdistinct)⟩

namespace Accompanied

/-- The loop that is pipelined. -/
def outer : Loop := { iv := "i", trip := .static 8, directives := ⟨true, 1, none⟩ }

/-- The loop that is laid out completely. -/
def inner : Loop := { iv := "k", trip := .static 4 }

/-- An element of an array read and written, whichever iteration of the inner loop it is. -/
def sums : Block where
  accesses := [⟨"s", .read, [⟨"i", ["i"]⟩]⟩, ⟨"s", .write, [⟨"i", ["i"]⟩]⟩]

/-- An element of another array read. -/
def reads : Block where
  accesses := [⟨"a", .read, [⟨"i", ["i"]⟩]⟩]

/-- A block that carries a reduction, and one beside it that does not. -/
def listing : Listing where
  name := "accompanied"
  records :=
    [⟨⟨0, .func { name := "top" }, none⟩, none⟩, ⟨⟨1, .loop outer, none⟩, some 0⟩,
     ⟨⟨2, .loop inner, none⟩, some 1⟩, ⟨⟨3, .block sums, none⟩, some 2⟩,
     ⟨⟨4, .block reads, none⟩, some 2⟩]
  arrays := [{ name := "s", shape := [8] }, { name := "a", shape := [8] }]

/-- The nest of the loop that is pipelined. -/
def nest : Nest where
  region := ⟨1, .loop outer, none⟩
  below :=
    .cons ⟨2, .loop inner, none⟩
      (.cons ⟨3, .block sums, none⟩ .nil (.cons ⟨4, .block reads, none⟩ .nil .nil)) .nil

/-- The loops as a tree. -/
def design : Design where
  name := "accompanied"
  root := ⟨0, .func { name := "top" }, none⟩
  below := nest.toForest
  arrays := listing.arrays

/-- The usual cost model. -/
def model : CostModel := (Estimator.new none {}).model

theorem design_listing : listing.design = .ok design := by decide +kernel

end Accompanied

/-- The block that reads another array carries no reduction across the inner loop. -/
theorem CostModel.depth_nest_accompanied :
    Accompanied.listing.design = .ok Accompanied.design ∧
    Accompanied.design.find? 1 = some Accompanied.nest ∧
    (Accompanied.model.flatBody Accompanied.design.arrays {} "i" Accompanied.nest.below).depth =
      Accompanied.model.sharedDepth Accompanied.design.arrays {} Accompanied.nest ∧
    Accompanied.model.ownDepth Accompanied.design.arrays {} Accompanied.nest ≤
      (Accompanied.model.flatBody Accompanied.design.arrays {} "i"
        Accompanied.nest.below).depth := by
  have hfind : Accompanied.design.find? 1 = some Accompanied.nest := by decide +kernel
  obtain ⟨hshared, hown, -⟩ :=
    depth_nest Accompanied.design_listing hfind Accompanied.model {} "i"
  exact ⟨Accompanied.design_listing, hfind, hshared, hown⟩

namespace Accompanied

/-- **A block waits for its neighbour**: the three cycles of one block are chained four times, and
    so are the two cycles of the other one, which carries no reduction. The flat body has a depth of
    twenty cycles and not of fourteen, and the loop is estimated with six cycles more. -/
theorem neighbour_chained : listing.design = .ok design ∧
    design.find? 1 = some nest ∧
    (model.flatBody design.arrays {} "i" nest.below).depth = 20 ∧
    model.ownDepth design.arrays {} nest = 14 ∧
    ((Estimator.new none {}).run ⟨design, .empty⟩).toOption.bind (fun r =>
      (r.2.table.metrics? 1).map Metrics.latency) = some (.known (pipelinedLatency 8 1 20)) := by
  refine ⟨design_listing, ?_, ?_, ?_, ?_⟩ <;> decide +kernel

end Accompanied

end DesignSpace
