/-
  Subject:   TILES AS LONG AS THE LOOP. Such a tile counts as none: estimates do not tell the two
             apart.

  * `Loop.plain`: a loop with such a tile left out;
  * `Estimator.combine_plain`: what a region costs does not depend on it;
  * `Design.Alike`: designs that differ in such tiles only;
  * `Design.Alike.estimate?_eq`: **they have the same estimates**.
-/
import DesignSpace.Proofs.Estimate.Depends

namespace DesignSpace

/-! ## 1. Loops and regions -/

/-- A loop with its tile left out if that is as long as the loop. -/
def Loop.plain (l : Loop) : Loop :=
  { l with directives :=
    { l.directives with
      tile := if l.directives.tile = l.trip.bounded then none else l.directives.tile } }

/-- A kind of region with tiles left out that are as long as the loop. -/
def Kind.plain : Kind → Kind
  | .loop l => .loop l.plain
  | k => k

/-- A region with tiles left out that are as long as the loop. -/
def Region.plain (r : Region) : Region := { r with kind := r.kind.plain }

namespace Loop

theorem effectiveTile_plain (l : Loop) : l.plain.effectiveTile = l.effectiveTile := by
  show l.trip.bounded.map _ = l.trip.bounded.map _
  cases hb : l.trip.bounded with
  | none => rfl
  | some n =>
      show some ((if l.directives.tile = l.trip.bounded then none else l.directives.tile).getD n) =
        some (l.directives.tile.getD n)
      by_cases ht : l.directives.tile = l.trip.bounded
      · rw [if_pos ht, ht, hb]
        rfl
      · rw [if_neg ht]

theorem isTiled_plain (l : Loop) : l.plain.isTiled = l.isTiled := by
  have htrip : l.plain.trip.bounded = l.trip.bounded := rfl
  have htile : l.plain.directives.tile =
      if l.directives.tile = l.trip.bounded then none else l.directives.tile := rfl
  unfold isTiled
  rw [htrip, htile]
  by_cases ht : l.directives.tile = l.trip.bounded
  · rw [if_pos ht, ht]
    cases l.trip.bounded with
    | none => rfl
    | some n => exact (decide_eq_false (Nat.lt_irrefl n)).symm
  · rw [if_neg ht]

theorem initiation_plain (l : Loop) (b : FlatBody) : l.plain.initiation b = l.initiation b := rfl

theorem tileLatency_plain (l : Loop) (b : FlatBody) (tile : Nat) :
    l.plain.tileLatency b tile = l.tileLatency b tile := rfl

theorem tileOverhead_plain (l : Loop) (b : Buffers) :
    l.plain.tileOverhead b = l.tileOverhead b := by
  rw [tileOverhead, tileOverhead, isTiled_plain]

end Loop

theorem directing_plain : Directing Region.plain := by
  intro r
  obtain ⟨_, k, _⟩ := r
  cases k <;> rfl

namespace Region

theorem loop?_plain (r : Region) : r.plain.loop? = r.loop?.map Loop.plain := by
  obtain ⟨_, k, _⟩ := r
  cases k <;> rfl

theorem gate_plain (r : Region) : r.plain.gate = r.gate := by
  rw [gate, gate, loop?_plain]
  cases r.loop? with
  | none => rfl
  | some l => exact congrArg (fun t => some (l.iv, l.directives.unroll, t)) l.isTiled_plain

theorem stages_plain (r : Region) (parts : Nat) : r.plain.stages parts = r.stages parts := by
  obtain ⟨_, k, _⟩ := r
  cases k <;> rfl

theorem balances_plain (r : Region) : r.plain.balances = r.balances := by
  obtain ⟨_, k, _⟩ := r
  cases k <;> rfl

end Region

/-! ## 2. Metrics -/

variable {e : Estimator} {d d' : Design} {c : Context}

/-- Which stages access an array is no matter of directives. -/
theorem Design.scopedStorage_map {g : Region → Region} (hg : Directing g) (n : Nest)
    (spans : List Span) : d.scopedStorage (n.map g) spans = d.scopedStorage n spans := by
  have htouch : ∀ name, touchingStages (n.map g).children spans name =
      touchingStages n.children spans name := by
    intro name
    unfold touchingStages
    rw [Nest.children_map]
    congr 1
    funext s
    rw [Span.slice, Span.slice, ← List.map_drop, ← List.map_take, List.any_map]
    congr 1
    funext m
    exact congrArg (fun as : List Access => as.any _) (Nest.accesses_map hg m)
  unfold scopedStorage
  have hid : (n.map g).region.id = n.region.id := hg.id_eq n.region
  simp only [htouch, hid]

namespace Context

theorem enter_plain (c : Context) (arrays : List ArrayDecl) (n : Nest) :
    c.enter arrays (n.map Region.plain) = c.enter arrays n :=
  enter_congr n.region.gate_plain (Nest.accesses_map directing_plain n)

theorem tileFootprint_plain (n : Nest) (a : ArrayDecl) :
    (n.map Region.plain).tileFootprint a = n.tileFootprint a := by
  have hloop : (n.map Region.plain).region.loop? = n.region.loop?.map Loop.plain :=
    n.region.loop?_plain
  unfold Nest.tileFootprint
  rw [hloop, Nest.accesses_map directing_plain, Nest.ranges_map directing_plain]
  cases n.region.loop? with
  | none => rfl
  | some l =>
      show Count.product (a.shape.mapIdx fun dimension extent =>
        Nest.dimensionFootprint n.ranges l.iv (l.plain.effectiveTile.getD 1) extent _) = _
      rw [l.effectiveTile_plain]

theorem tileBuffers_plain (c : Context) (arrays : List ArrayDecl) (n : Nest) :
    c.tileBuffers arrays (n.map Region.plain) = c.tileBuffers arrays n := by
  have hacc := Nest.accesses_map directing_plain n
  have hp : c.promotions arrays (n.map Region.plain) = c.promotions arrays n :=
    promotions_congr n.region.gate_plain hacc
  have hf : (n.map Region.plain).tileFootprint = n.tileFootprint :=
    funext fun a => tileFootprint_plain n a
  rw [tileBuffers, tileBuffers, hp, hf, hacc]

end Context

namespace Estimator

theorem stagesOf_plain (n : Nest) (parts : List Metrics) :
    stagesOf (n.map Region.plain) parts = stagesOf n parts := by
  have hstages : (n.map Region.plain).stages = n.stages := by
    unfold Nest.stages
    rw [Nest.length_children_map]
    exact n.region.stages_plain _
  have hb : (n.map Region.plain).region.balances = n.region.balances := n.region.balances_plain
  unfold stagesOf
  rw [hstages, hb]

theorem scopeMetrics_plain (n : Nest) (parts : List Metrics) (controllers : Nat) :
    scopeMetrics d (n.map Region.plain) parts controllers = scopeMetrics d n parts controllers := by
  unfold scopeMetrics
  simp only [stagesOf_plain, Design.scopedStorage_map directing_plain]

theorem flatLoopMetrics_plain (m : CostModel) (arrays : List ArrayDecl) (n : Nest) :
    m.flatLoopMetrics arrays c (n.map Region.plain) = m.flatLoopMetrics arrays c n := by
  have hloop : (n.map Region.plain).region.loop? = n.region.loop?.map Loop.plain :=
    n.region.loop?_plain
  have hbelow : ∀ iv, m.flatBody arrays (c.enter arrays n) iv (n.map Region.plain).below =
      m.flatBody arrays (c.enter arrays n) iv n.below := by
    intro iv
    have hflat : (n.map Region.plain).below.flatten (c.enter arrays n) 1 =
        n.below.flatten (c.enter arrays n) 1 := Forest.flatten_map directing_plain _ _ _
    unfold CostModel.flatBody
    rw [hflat]
  unfold CostModel.flatLoopMetrics
  rw [hloop, Context.enter_plain, Context.tileBuffers_plain]
  cases n.region.loop? with
  | none => rfl
  | some l =>
      simp only [Option.map_some, hbelow, Loop.effectiveTile_plain, Loop.initiation_plain,
        Loop.tileLatency_plain, Loop.tileOverhead_plain]
      rfl

theorem outerLoopMetrics_plain (arrays : List ArrayDecl) (n : Nest) (body : Metrics) :
    CostModel.outerLoopMetrics arrays c (n.map Region.plain) body =
      CostModel.outerLoopMetrics arrays c n body := by
  have hloop : (n.map Region.plain).region.loop? = n.region.loop?.map Loop.plain :=
    n.region.loop?_plain
  unfold CostModel.outerLoopMetrics
  rw [hloop, Context.tileBuffers_plain]
  cases n.region.loop? with
  | none => rfl
  | some l =>
      simp only [Option.map_some, Loop.effectiveTile_plain, Loop.tileOverhead_plain]
      rfl

theorem combine_plain (n : Nest) (parts : List Metrics) :
    e.combine d c (n.map Region.plain) parts = e.combine d c n parts := by
  have hkind : (n.map Region.plain).region.kind = n.region.kind.plain := rfl
  unfold combine
  rw [hkind, Nest.isInnermostLoop_map directing_plain, flatLoopMetrics_plain, stagesOf_plain]
  cases n.region.kind with
  | block b => rfl
  | loop l =>
      show (if l.directives.pipeline || n.isInnermostLoop then _ else _) = _
      rw [outerLoopMetrics_plain]
  | func f => exact scopeMetrics_plain n parts 1
  | dataflow => exact scopeMetrics_plain n parts 0

theorem fresh_plain (f : Forest) : e.fresh d c (f.map Region.plain) = e.fresh d c f := by
  induction f generalizing c with
  | nil => rfl
  | cons r below after ihb iha =>
      have henter := c.enter_plain d.arrays ⟨r, below⟩
      have hcombine := @combine_plain e d c ⟨r, below⟩
      unfold Nest.map at henter hcombine
      rw [Forest.map, fresh, fresh, henter, ihb, iha, hcombine]

theorem estimate_plain (n : Nest) : e.estimate d c (n.map Region.plain) = e.estimate d c n := by
  have hbelow : (n.map Region.plain).below = n.below.map Region.plain := rfl
  unfold estimate
  rw [Context.enter_plain, hbelow, fresh_plain, combine_plain]

theorem estimateIn?_plain (id : RegionId) (f : Forest) :
    e.estimateIn? d id c (f.map Region.plain) = e.estimateIn? d id c f := by
  induction f generalizing c with
  | nil => rfl
  | cons r below after ihb iha =>
      have henter := c.enter_plain d.arrays ⟨r, below⟩
      have hestimate := @estimate_plain e d c ⟨r, below⟩
      unfold Nest.map at henter hestimate
      rw [Forest.map, estimateIn?, estimateIn?, henter, ihb, iha, hestimate]
      rfl

theorem estimateIn?_congr (ha : d.arrays = d'.arrays) (hr : d.root.id = d'.root.id)
    (id : RegionId) (f : Forest) : e.estimateIn? d id c f = e.estimateIn? d' id c f := by
  induction f generalizing c with
  | nil => rfl
  | cons r below after ihb iha =>
      rw [estimateIn?, estimateIn?, ihb, iha, estimate_congr ha hr, ha]

end Estimator

/-! ## 3. Designs -/

namespace Design

/-- **Designs that are alike**: they differ in nothing but tiles as long as the loop. -/
structure Alike (d d' : Design) : Prop where
  name : d.name = d'.name
  forest : d.forest.map Region.plain = d'.forest.map Region.plain
  arrays : d.arrays = d'.arrays
  root : d.root.id = d'.root.id

namespace Alike

theorem forest_bare_eq (h : d.Alike d') : d'.forest.bare = d.forest.bare := by
  have hb := congrArg Forest.bare h.forest
  rw [Forest.bare_map directing_plain, Forest.bare_map directing_plain] at hb
  exact hb.symm

theorem bare_eq (h : d.Alike d') : d'.bare = d.bare :=
  bare_ext h.name.symm h.forest_bare_eq (by rw [h.arrays])

/-- Designs that are alike have the same estimates. -/
theorem estimate?_eq (h : d.Alike d') (e : Estimator) (id : RegionId) :
    e.estimate? d' id = e.estimate? d id := by
  rw [← Estimator.estimateIn?_forest, ← Estimator.estimateIn?_forest,
    ← Estimator.estimateIn?_plain id d'.forest, ← Estimator.estimateIn?_plain id d.forest,
    h.forest, Estimator.estimateIn?_congr h.arrays h.root]

end Alike

end Design

namespace Annotated

/-- A table stays up to date when the design is replaced by one that is alike. -/
theorem UpToDate.ofAlike {t : Table} (h : UpToDate e ⟨d, t⟩) (hd : d.Alike d') :
    UpToDate e ⟨d', t⟩ where
  distinct := by
    show d'.preorder.Nodup
    rw [Design.preorder_of_bare hd.forest_bare_eq]
    exact h.distinct
  ascending := h.ascending
  right id m hm := (hd.estimate?_eq e id).trans (h.right id m hm)
  closed id hid j hj := by
    have hj' : j ∈ d'.ancestors id := hj
    rw [Design.ancestors_of_bare hd.forest_bare_eq] at hj'
    exact h.closed id hid j hj'

/-- A complete table is complete for a design that is alike. -/
theorem Complete.ofAlike {t : Table} (h : Complete e ⟨d, t⟩) (hd : d.Alike d') :
    Complete e ⟨d', t⟩ where
  distinct := (h.upToDate.ofAlike hd).distinct
  ascending := h.ascending
  full id := (h.full id).trans (hd.estimate?_eq e id).symm

end Annotated

end DesignSpace
