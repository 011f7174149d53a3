/-
  Subject:   HOW MUCH OF AN ARRAY ONE TILE TOUCHES: at least one element, at most the array, and no
             more in a smaller tile of the same loop. So do the buffers that hold it.

  * `Nest.one_le_dimensionFootprint`, `dimensionFootprint_le`, `dimensionFootprint_mono`: along one
    dimension;
  * `Nest.tileFootprint_bounds`, `tileFootprint_mono`: of an array;
  * `Context.tileBuffers_mono`: memory and transfers of the buffers of a loop;
  * `Design.retile`, `eq_of_retile_eq`: designs that differ in the tile of one loop only;
  * `Design.tileFootprint_retile`: **the same of designs that are accepted**.
-/
import DesignSpace.Proofs.Estimate.Copies
import DesignSpace.Proofs.Estimate.Counted
import DesignSpace.Proofs.Estimate.Promoted

namespace DesignSpace

/-! ## 1. Counts -/

namespace Count

variable {a a' b b' low high x y : Nat} {xs ys : List Nat}

theorem mul_mono (ha : a ≤ a') (hb : b ≤ b') : mul a b ≤ mul a' b' := by
  have hmul := Nat.mul_le_mul ha hb
  unfold mul
  omega

theorem clamp_mono (h : x ≤ y) : clamp low high x ≤ clamp low high y := by
  unfold clamp
  omega

theorem le_clamp (h : low ≤ high) (x : Nat) : low ≤ clamp low high x := by
  unfold clamp
  omega

theorem clamp_le (low high x : Nat) : clamp low high x ≤ high := Nat.min_le_right _ _

/-- The quotient rounded up is the least one that is enough. -/
theorem ceilDiv_le_iff (hb : b ≠ 0) : ceilDiv a b ≤ x ↔ a ≤ x * b := by
  constructor
  · exact fun h => Nat.le_trans (le_ceilDiv_mul a hb) (Nat.mul_le_mul_right b h)
  · intro h
    have hpos := Nat.pos_of_ne_zero hb
    rw [ceilDiv, if_neg hb]
    split
    · exact (Nat.div_le_iff_le_mul_add_pred hpos).mpr (by rw [Nat.mul_comm] at h; omega)
    · next hmod =>
      -- what leaves a remainder is not the product itself
      have hne : a ≠ x * b := fun heq => hmod (heq ▸ Nat.mul_mod_left x b)
      have hlt := (Nat.div_lt_iff_lt_mul hpos).mpr (Nat.lt_of_le_of_ne h hne)
      omega

theorem ceilDiv_mono (h : a ≤ a') (b : Nat) : ceilDiv a b ≤ ceilDiv a' b := by
  by_cases hb : b = 0
  · rw [ceilDiv, ceilDiv, if_pos hb, if_pos hb]
    exact h
  · exact (ceilDiv_le_iff hb).mpr (Nat.le_trans h (le_ceilDiv_mul a' hb))

theorem ceilDiv_anti (hb : b ≠ 0) (h : b ≤ b') (a : Nat) : ceilDiv a b' ≤ ceilDiv a b := by
  refine (ceilDiv_le_iff (by omega)).mpr (Nat.le_trans (le_ceilDiv_mul a hb) ?_)
  exact Nat.mul_le_mul_left _ h

theorem product_mono (h : List.Forall₂ (· ≤ ·) xs ys) : product xs ≤ product ys := by
  have hprod : xs.prod ≤ ys.prod := by
    induction h with
    | nil => exact Nat.le_refl _
    | cons h _ ih =>
        rw [List.prod_cons, List.prod_cons]
        exact Nat.mul_le_mul h ih
  rw [product_eq, product_eq]
  omega

theorem one_le_product (h : ∀ x ∈ xs, 1 ≤ x) : 1 ≤ product xs := by
  have hprod : 0 < xs.prod := List.prod_pos h
  rw [product_eq]
  exact Nat.le_min.mpr ⟨hprod, by decide⟩

end Count

/-- More elements need no fewer banks. -/
theorem storageElements_mono {elements elements' : Nat} (h : elements ≤ elements')
    (bits partition : Nat) :
    storageElements elements bits partition ≤ storageElements elements' bits partition := by
  have hbits := Count.mul_mono (Count.ceilDiv_mono h (max partition 1)) (Nat.le_refl bits)
  have hbanks := Count.ceilDiv_mono hbits bankBits
  exact Count.mul_mono (Nat.le_refl _) (by omega)

/-! ## 2. Footprints -/

namespace Nest

variable {ranges : List (String × Option Nat)} {iv : String} {tile tile' extent : Nat}
  {names : List String} {a : ArrayDecl} {n n' : Nest} {l l' : Loop}

theorem one_le_dimensionFootprint : 1 ≤ dimensionFootprint ranges iv tile extent names := by
  unfold dimensionFootprint
  split
  · exact Nat.le_refl 1
  · exact Count.le_clamp (Nat.le_max_right _ _) _

theorem dimensionFootprint_le (h : 0 < extent) :
    dimensionFootprint ranges iv tile extent names ≤ extent := by
  unfold dimensionFootprint
  split
  · exact h
  · exact Nat.le_trans (Count.clamp_le _ _ _) (Nat.le_of_eq (Nat.max_eq_left h))

/-- A variable takes no fewer values in a larger tile. -/
theorem spanOf_mono (h : tile ≤ tile') (v : String) :
    spanOf ranges iv tile extent v ≤ spanOf ranges iv tile' extent v := by
  unfold spanOf
  split
  · exact h
  · exact Nat.le_refl _

/-- **Along one dimension** a larger tile touches no less, whichever variables stand in the
    subscripts. -/
theorem dimensionFootprint_mono (h : tile ≤ tile') :
    dimensionFootprint ranges iv tile extent names ≤
      dimensionFootprint ranges iv tile' extent names := by
  have hspans : List.Forall₂ (· ≤ ·) (names.map (spanOf ranges iv tile extent))
      (names.map (spanOf ranges iv tile' extent)) :=
    List.forall₂_map_left_iff.mpr (List.forall₂_map_right_iff.mpr
      (List.forall₂_same.mpr fun v _ => spanOf_mono h v))
  have hsum := count_sum_le hspans
  unfold dimensionFootprint
  split
  · exact Nat.le_refl 1
  · exact Count.clamp_mono (Nat.sub_le_sub_right hsum _)

/-- Footprints that are related dimension by dimension. -/
theorem forall₂_mapIdx {R : Nat → Nat → Prop} {f g : Nat → Nat → Nat} {shape : List Nat}
    (h : ∀ i, ∀ x ∈ shape, R (f i x) (g i x)) :
    List.Forall₂ R (shape.mapIdx f) (shape.mapIdx g) := by
  induction shape generalizing f g with
  | nil => exact .nil
  | cons x shape ih =>
      rw [List.mapIdx_cons, List.mapIdx_cons]
      exact .cons (h 0 x List.mem_cons_self)
        (ih fun i y hy => h (i + 1) y (List.mem_cons_of_mem x hy))

/-- **A tile touches something, and nothing but the array.** -/
theorem tileFootprint_bounds (n : Nest) (h : ∀ x ∈ a.shape, 0 < x) :
    1 ≤ n.tileFootprint a ∧ n.tileFootprint a ≤ a.elements := by
  unfold tileFootprint
  cases n.region.loop? with
  | none => exact ⟨Count.one_le_product h, Nat.le_refl _⟩
  | some l =>
      constructor
      · refine Count.one_le_product fun x hx => ?_
        obtain ⟨i, hi, rfl⟩ := List.mem_mapIdx.mp hx
        exact one_le_dimensionFootprint
      · have hbound : ∀ i, ∀ x ∈ a.shape,
            dimensionFootprint n.ranges l.iv (l.effectiveTile.getD 1) x
              (variablesAt (n.accesses.filter fun x => x.array = a.name) i) ≤ x :=
          fun i x hx => dimensionFootprint_le (h x hx)
        have hshape := forall₂_mapIdx (g := fun _ extent => extent) hbound
        have hself : a.shape.mapIdx (fun _ extent => extent) = a.shape :=
          List.mapIdx_eq_iff.mpr fun i => by simp
        rw [hself] at hshape
        exact Count.product_mono hshape

/-- **A larger tile touches no less**, if nothing but the tile is different. -/
theorem tileFootprint_mono (hl : n.region.loop? = some l) (hl' : n'.region.loop? = some l')
    (hiv : l.iv = l'.iv) (ht : l.effectiveTile.getD 1 ≤ l'.effectiveTile.getD 1)
    (haccesses : n.accesses = n'.accesses) (hranges : n.ranges = n'.ranges) (a : ArrayDecl) :
    n.tileFootprint a ≤ n'.tileFootprint a := by
  unfold tileFootprint
  rw [hl, hl', haccesses, hranges]
  dsimp only
  rw [hiv]
  exact Count.product_mono (forall₂_mapIdx fun i x _ => dimensionFootprint_mono ht)

end Nest

/-! ## 3. Buffers -/

/-- **The buffers of a larger tile are no smaller**, and to fill and to empty them takes no fewer
    cycles, if the same arrays are copied. -/
theorem Context.tileBuffers_mono {c : Context} {arrays : List ArrayDecl} {n n' : Nest}
    (hpromotions : c.promotions arrays n = c.promotions arrays n')
    (haccesses : n.accesses = n'.accesses) (h : ∀ a, n.tileFootprint a ≤ n'.tileFootprint a) :
    (c.tileBuffers arrays n).storage ≤ (c.tileBuffers arrays n').storage ∧
      (c.tileBuffers arrays n).transfer ≤ (c.tileBuffers arrays n').transfer := by
  have hsums : ∀ (cost : Nat → ArrayDecl → Nat), (∀ x y a, x ≤ y → cost x a ≤ cost y a) →
      Count.sum (((c.promotions arrays n).map fun a => (a, n.tileFootprint a)).map
          fun e => cost e.2 e.1) ≤
        Count.sum (((c.promotions arrays n).map fun a => (a, n'.tileFootprint a)).map
          fun e => cost e.2 e.1) := by
    intro cost hcost
    rw [List.map_map, List.map_map]
    exact count_sum_le (List.forall₂_map_left_iff.mpr (List.forall₂_map_right_iff.mpr
      (List.forall₂_same.mpr fun a _ => hcost _ _ a (h a))))
  unfold tileBuffers
  rw [← hpromotions, ← haccesses]
  exact ⟨hsums (fun x a => storageElements x a.bits a.partition)
      fun x y a hxy => storageElements_mono hxy _ _,
    hsums (fun x a => Count.mul x ([AccessKind.read, AccessKind.write].countP fun k =>
      n.accesses.any fun x => x.array = a.name && x.kind == k))
      fun x y a hxy => Count.mul_mono hxy (Nat.le_refl _)⟩

/-! ## 4. Designs -/

/-- A design with another tile of one loop, or with none. -/
def Design.retile (d : Design) (id : RegionId) (tile : Option Nat) : Design :=
  d.setLoop id fun l => { l.directives with tile := tile }

/-- A kind of region with another tile. -/
def Kind.retile (tile : Option Nat) : Kind → Kind
  | .loop l => .loop { l with directives := { l.directives with tile := tile } }
  | k => k

theorem Kind.bare_retile (tile : Option Nat) (k : Kind) : (k.retile tile).bare = k.bare := by
  cases k <;> rfl

namespace Design

variable {d d' : Design} {id : RegionId} {n n' : Nest} {l l' : Loop} {change : Kind → Kind}

theorem retile_eq (d : Design) (id : RegionId) (tile : Option Nat) :
    d.retile id tile = d.updateRegion id (Kind.retile tile) := by
  unfold retile setLoop
  congr 1

/-- **What the loops around a region impose on it** has nothing to do with its own directives. -/
theorem context_updateRegion (hd : d.preorder.Nodup) (hc : ∀ k, (change k).bare = k.bare) :
    (d.updateRegion id change).context id = d.context id := by
  have hg := directing_alter id hc
  have habove : (d.updateRegion id change).above id =
      (d.above id).map (Nest.map (Region.alter id change)) := by
    rw [above, forest_updateRegion, Forest.update_eq_map, Forest.above_map hg.id_eq, above]
    cases Forest.above id d.forest <;> rfl
  have hgate : ∀ n ∈ d.above id, (Region.alter id change n.region).gate = n.region.gate := by
    intro n hn
    have hne : n.region.id ≠ id := by
      intro heq
      have hself : id ∈ d.ancestors id :=
        List.mem_reverse.mpr (List.mem_map.mpr ⟨n, hn, heq⟩)
      exact not_mem_ancestors_self hd hself
    rw [Region.alter, if_neg hne]
  rw [context, context, habove]
  exact Context.foldl_enter_map hg hgate

/-- Designs that differ in the tile of one loop have that loop in the same context, and its nests
    differ in directives only. -/
theorem eq_of_retile_eq (hd : d.preorder.Nodup) (h : d.retile id none = d'.retile id none)
    (hn : d.find? id = some n) (hn' : d'.find? id = some n') :
    d.arrays = d'.arrays ∧ d.context id = d'.context id ∧
      n.map (Region.alter id (Kind.retile none)) = n'.map (Region.alter id (Kind.retile none)) := by
  rw [retile_eq, retile_eq] at h
  have hbare := Kind.bare_retile none
  have hpreorder : ∀ c : Design, (c.updateRegion id (Kind.retile none)).preorder = c.preorder := by
    intro c
    rw [preorder, forest_updateRegion, Forest.update_eq_map,
      Forest.ids_map (directing_alter id hbare).id_eq]
    rfl
  have hd' : d'.preorder.Nodup := by
    rw [← hpreorder, ← h, hpreorder]
    exact hd
  have hfind : (d.updateRegion id (Kind.retile none)).find? id =
      (d'.updateRegion id (Kind.retile none)).find? id := by rw [h]
  rw [find?_updateRegion id id hbare, find?_updateRegion id id hbare, hn, hn'] at hfind
  have harrays : (d.updateRegion id (Kind.retile none)).arrays =
      (d'.updateRegion id (Kind.retile none)).arrays := by rw [h]
  refine ⟨harrays, ?_, Option.some.inj hfind⟩
  rw [← context_updateRegion hd hbare, h, context_updateRegion hd' hbare]

end Design

/-- Loops that differ in the tile only. -/
theorem Nest.loop_of_retile_eq {id : RegionId} {n n' : Nest} {l l' : Loop}
    (hid : n.region.id = id) (hid' : n'.region.id = id) (hl : n.region.loop? = some l)
    (hl' : n'.region.loop? = some l')
    (h : n.map (Region.alter id (Kind.retile none)) =
      n'.map (Region.alter id (Kind.retile none))) :
    l.iv = l'.iv ∧ l.trip = l'.trip ∧ l.directives.unroll = l'.directives.unroll := by
  have hregion : Region.alter id (Kind.retile none) n.region =
      Region.alter id (Kind.retile none) n'.region := congrArg Nest.region h
  rw [Region.alter, Region.alter, if_pos hid, if_pos hid'] at hregion
  have hkind : Kind.retile none n.region.kind = Kind.retile none n'.region.kind :=
    congrArg Region.kind hregion
  rw [Region.loop?_eq_some_iff.mp hl, Region.loop?_eq_some_iff.mp hl'] at hkind
  injection hkind with hloop
  injection hloop with hiv htrip hdirectives
  injection hdirectives with _ hunroll
  exact ⟨hiv, htrip, hunroll⟩

/-- A bounded loop is cut into tiles if its tile is shorter than the loop. -/
theorem Loop.isTiled_of_lt {l : Loop} {trip tile : Nat} (htrip : l.trip.bounded = some trip)
    (htile : l.effectiveTile = some tile) (hlt : tile < trip) : l.isTiled = true := by
  rw [effectiveTile, htrip, Option.map_some, Option.some.injEq] at htile
  unfold isTiled
  rw [htrip]
  cases ht : l.directives.tile with
  | none =>
      rw [ht, Option.getD_none] at htile
      exact absurd htile (Nat.ne_of_gt hlt)
  | some t =>
      rw [ht, Option.getD_some] at htile
      exact decide_eq_true (htile ▸ hlt)

namespace Design

variable {d : Design} {id : RegionId} {n : Nest} {l : Loop}

/-- **What one tile touches.** In a design that is accepted, one tile of a loop touches at least one
    element of every array and at most all of it. Of two designs that are accepted and differ in
    the tile of the loop only, the one with the smaller tile touches no more of any array; and where
    both tiles are shorter than the loop, its buffers take no more memory, and no more cycles to
    fill and to empty. -/
theorem tileFootprint_retile {listing : Listing} (hd : listing.design = .ok d)
    (hn : d.find? id = some n) (hl : n.region.loop? = some l) :
    (∀ a ∈ d.arrays, 1 ≤ n.tileFootprint a ∧ n.tileFootprint a ≤ a.elements) ∧
      ∀ (listing' : Listing) (d' : Design) (n' : Nest) (l' : Loop), listing'.design = .ok d' →
        d.retile id none = d'.retile id none → d'.find? id = some n' →
        n'.region.loop? = some l' → ∀ tile tile', l.effectiveTile = some tile →
        l'.effectiveTile = some tile' → tile ≤ tile' →
        (∀ a, n.tileFootprint a ≤ n'.tileFootprint a) ∧
          ∀ trip, l.trip.bounded = some trip → tile' < trip →
            ((d.context id).tileBuffers d.arrays n).storage ≤
                ((d'.context id).tileBuffers d'.arrays n').storage ∧
              ((d.context id).tileBuffers d.arrays n).transfer ≤
                ((d'.context id).tileBuffers d'.arrays n').transfer := by
  refine ⟨fun a ha => Nest.tileFootprint_bounds n ?_, ?_⟩
  · obtain ⟨-, harrays, -⟩ := check_eq_ok_iff.mp (Listing.tree_of_design hd).2
    exact ((ArrayDecl.check_eq_ok_iff a).mp (harrays a ha).1).1.2
  · intro listing' d' n' l' _ hsame hn' hl' tile tile' htile htile' hle
    obtain ⟨harrays, hcontext, hmap⟩ :=
      eq_of_retile_eq (Listing.nodup_of_design hd) hsame hn hn'
    have hg := directing_alter id (Kind.bare_retile none)
    have haccesses : n.accesses = n'.accesses := by
      rw [← Nest.accesses_map hg n, hmap, Nest.accesses_map hg]
    have hranges : n.ranges = n'.ranges := by
      rw [← Nest.ranges_map hg n, hmap, Nest.ranges_map hg]
    obtain ⟨hiv, htrip, hunroll⟩ := Nest.loop_of_retile_eq (Forest.find?_mem hn).2
      (Forest.find?_mem hn').2 hl hl' hmap
    have hfootprint : ∀ a, n.tileFootprint a ≤ n'.tileFootprint a := by
      refine Nest.tileFootprint_mono hl hl' hiv ?_ haccesses hranges
      rw [htile, htile']
      exact hle
    refine ⟨hfootprint, fun trip hbounded hlt => ?_⟩
    have hgate : n.region.gate = n'.region.gate := by
      rw [Region.gate, Region.gate, hl, hl', Option.map_some, Option.map_some, hiv, hunroll,
        Loop.isTiled_of_lt hbounded htile (Nat.lt_of_le_of_lt hle hlt),
        Loop.isTiled_of_lt (htrip ▸ hbounded) htile' hlt]
    rw [← harrays, ← hcontext]
    exact Context.tileBuffers_mono (Context.promotions_congr hgate haccesses) haccesses hfootprint

end Design

namespace Blocked

/-- The nest of the outer loop, in tiles of four. -/
def finely : Nest :=
  { around with region := ⟨1, .loop { outer with directives := ⟨false, 1, some 4⟩ }, none⟩ }

/-- The design with the outer loop in tiles of four. -/
def fineDesign : Design := { design with below := finely.toForest }

/-- The listing of the design with the outer loop in tiles of four. -/
def fineListing : Listing :=
  { listing with
    records :=
      [⟨⟨0, .func { name := "top" }, none⟩, none⟩, ⟨finely.region, some 0⟩,
       ⟨⟨2, .loop inner, none⟩, some 1⟩, ⟨⟨3, .block body, none⟩, some 2⟩] }

end Blocked

/-- Tiles of four and of eight of one loop: half of the elements. -/
theorem Design.tileFootprint_retile_blocked :
    Blocked.fineListing.design = .ok Blocked.fineDesign ∧
      Blocked.finely.tileFootprint Blocked.grid = 64 ∧
      Blocked.around.tileFootprint Blocked.grid = 128 ∧
      1 ≤ Blocked.finely.tileFootprint Blocked.grid ∧
      Blocked.finely.tileFootprint Blocked.grid ≤ Blocked.grid.elements ∧
      Blocked.finely.tileFootprint Blocked.grid ≤ Blocked.around.tileFootprint Blocked.grid ∧
      ((Blocked.fineDesign.context 1).tileBuffers [Blocked.grid] Blocked.finely).transfer ≤
        ((Blocked.design.context 1).tileBuffers [Blocked.grid] Blocked.around).transfer := by
  have hfine : Blocked.fineListing.design = .ok Blocked.fineDesign := by decide +kernel
  obtain ⟨hbounds, hmono⟩ := Design.tileFootprint_retile hfine
    (by decide +kernel : Blocked.fineDesign.find? 1 = some Blocked.finely) rfl
  obtain ⟨hlow, hhigh⟩ := hbounds Blocked.grid List.mem_cons_self
  obtain ⟨hle, hbuffers⟩ := hmono Blocked.listing Blocked.design Blocked.around _
    Blocked.design_listing (by decide +kernel) (by decide +kernel) rfl 4 8 rfl rfl (by decide)
  exact ⟨hfine, by decide +kernel, by decide +kernel, hlow, hhigh, hle _,
    (hbuffers 16 rfl (by decide)).2⟩

end DesignSpace
