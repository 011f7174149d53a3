/-
  Subject:   GUARDED COSTS. What a block, a loop and the memory cost, with a guard in front of
             every quotient, every difference, every plain sum and every range.

  * `CostModel.one_le_interval`, `Nest.tileFootprint_le_limit`: what the guards are about;
  * `Guarded.pressure_eq`: ports; a memory without ports traps nothing;
  * `Guarded.tileFootprint_eq`, `tileBuffers_eq`: tiles and their buffers;
  * `Guarded.blockMetrics_eq`: **blocks**;
  * `Loop.Tileable`: a loop whose tiles are not empty;
  * `Guarded.flatLoopMetrics_eq`, `outerLoopMetrics_eq`: **loops of that kind**;
  * `Guarded.flatLoopMetrics_of_empty_tile`: a loop of the other kind traps;
  * `Guarded.scopedStorage_eq`: arrays that live as long as a region.
-/
import DesignSpace.Proofs.Estimate.Compose
import DesignSpace.Proofs.Estimate.Copies
import DesignSpace.Proofs.Guarded.Stages

namespace DesignSpace

/-! ## 1. Bounds -/

theorem Count.product_le_limit (xs : List Nat) : Count.product xs ≤ Count.limit := by
  rw [Count.product_eq]
  exact Nat.min_le_right _ _

theorem Nest.tileFootprint_le_limit (n : Nest) (a : ArrayDecl) :
    n.tileFootprint a ≤ Count.limit := by
  unfold tileFootprint
  split <;> exact Count.product_le_limit _

/-- The interval is one at least. -/
theorem CostModel.one_le_interval (m : CostModel) (arrays : List ArrayDecl) (c : Context)
    (issues : List Issue) : 1 ≤ (m.pressure arrays c issues).interval :=
  (foldl_max_le_iff.mp (Nat.le_refl _)).1

theorem CostModel.units_flatBody_le (m : CostModel) (arrays : List ArrayDecl) (c : Context)
    (iv : String) (below : Forest) : (m.flatBody arrays c iv below).units ≤ Count.limit :=
  Count.sum_le_limit _

namespace Guarded

/-! ## 2. Ports -/

/-- The interval that the busiest array allows, and the ports in use on all arrays. -/
def pressure (m : CostModel) (arrays : List ArrayDecl) (c : Context) (issues : List Issue) :
    Guarded Pressure := do
  let demands := (issues.map Issue.array).eraseDups.filterMap (m.demandOn arrays c issues)
  let intervals ← demands.mapM fun d => ceilDiv d.1 d.2
  return {
    interval := intervals.foldl max 1
    ports := Count.sum (demands.map fun d => min d.1 d.2) }

theorem pressure_eq (m : CostModel) (arrays : List ArrayDecl) (c : Context) (issues : List Issue) :
    pressure m arrays c issues = .ok (m.pressure arrays c issues) := by
  unfold pressure
  dsimp only
  rw [mapM_eq (g := fun d => Count.ceilDiv d.1 d.2) fun d hd => ?_]
  · rfl
  · obtain ⟨name, -, hname⟩ := List.mem_filterMap.mp hd
    obtain ⟨a, -, rfl⟩ := Option.map_eq_some_iff.mp hname
    exact ceilDiv_eq (Count.sum_le_limit _) _

/-! ## 3. Tiles -/

/-- The elements that one tile touches along one dimension. -/
def dimensionFootprint (ranges : List (String × Option Nat)) (iv : String) (tile extent : Nat)
    (names : List String) : Guarded Nat :=
  if names.isEmpty then .ok 1
  else do
    let span := Count.sum (names.map (Nest.spanOf ranges iv tile extent))
    clamp 1 (max extent 1) (span - (← sub names.length 1))

theorem dimensionFootprint_eq (ranges : List (String × Option Nat)) (iv : String)
    (tile extent : Nat) (names : List String) : dimensionFootprint ranges iv tile extent names =
      .ok (Nest.dimensionFootprint ranges iv tile extent names) := by
  unfold dimensionFootprint Nest.dimensionFootprint
  by_cases hnames : names = []
  · subst hnames
    rfl
  · have hlength : 1 ≤ names.length := List.length_pos_iff.mpr hnames
    have hempty : ¬ names.isEmpty = true := fun h => hnames (List.isEmpty_iff.mp h)
    rw [if_neg hempty, if_neg hempty]
    dsimp only
    rw [sub_eq hlength, ok_bind, clamp_eq (Nat.le_max_right _ _)]

/-- The elements of an array that one tile of a loop touches; all of them outside of loops. -/
def tileFootprint (n : Nest) (a : ArrayDecl) : Guarded Nat :=
  match n.region.loop? with
  | none => .ok a.elements
  | some l => do
    let tile := l.effectiveTile.getD 1
    let own := n.accesses.filter fun x => x.array = a.name
    let footprints ← a.shape.zipIdx.mapM fun e =>
      dimensionFootprint n.ranges l.iv tile e.1 (Nest.variablesAt own e.2)
    return Count.product footprints

theorem tileFootprint_eq (n : Nest) (a : ArrayDecl) :
    tileFootprint n a = .ok (n.tileFootprint a) := by
  unfold tileFootprint Nest.tileFootprint
  cases n.region.loop? with
  | none => rfl
  | some l =>
      dsimp only
      rw [mapM_eq fun e _ => dimensionFootprint_eq _ _ _ _ _, ok_bind, pure_eq,
        List.mapIdx_eq_zipIdx_map]

/-- The buffers of a nest: one for every array that it copies onto the chip. -/
def tileBuffers (c : Context) (arrays : List ArrayDecl) (n : Nest) : Guarded Buffers := do
  let accessed (a : ArrayDecl) (k : AccessKind) : Nat :=
    if n.accesses.any fun x => x.array = a.name && x.kind == k then 1 else 0
  let buffers ← (c.promotions arrays n).mapM fun a => do
    let elements ← tileFootprint n a
    let storage ← storageElements elements a.bits a.partition
    let directions ← add (accessed a .read) (accessed a .write)
    return (storage, Count.mul elements directions)
  return {
    storage := Count.sum (buffers.map Prod.fst)
    transfer := Count.sum (buffers.map Prod.snd) }

theorem tileBuffers_eq (c : Context) (arrays : List ArrayDecl) (n : Nest) :
    tileBuffers c arrays n = .ok (c.tileBuffers arrays n) := by
  unfold tileBuffers Context.tileBuffers
  dsimp only
  rw [mapM_eq (g := fun a => (DesignSpace.storageElements (n.tileFootprint a) a.bits a.partition,
    Count.mul (n.tileFootprint a) ([AccessKind.read, AccessKind.write].countP fun k =>
      n.accesses.any fun x => x.array = a.name && x.kind == k))) fun a _ => ?_]
  · rw [ok_bind, pure_eq, List.map_map, List.map_map, List.map_map, List.map_map]
    rfl
  · have hadd := fun (p q : Bool) => add_eq (a := if p then 1 else 0) (b := if q then 1 else 0)
      (by cases p <;> cases q <;> decide)
    rw [tileFootprint_eq, ok_bind, storageElements_eq (n.tileFootprint_le_limit a), ok_bind, hadd,
      ok_bind, List.countP_cons, List.countP_singleton, Nat.add_comm]
    rfl

/-! ## 4. Blocks -/

/-- The metrics of a block: its copies run side by side and share the memory. -/
def blockMetrics (m : CostModel) (arrays : List ArrayDecl) (c : Context) (b : Block) :
    Guarded Metrics := do
  let p ← pressure m arrays c (b.accesses.map (Issue.ofAccess c))
  let latency := Count.add (m.straightLine arrays c b) (← sub p.interval 1)
  return {
    latency := .known latency
    interval := .known latency
    resources := { computeUnits := Count.mul (m.units b) c.copies, memoryPorts := p.ports } }

/-- **Blocks do not trap**: the interval is one at least. -/
theorem blockMetrics_eq (m : CostModel) (arrays : List ArrayDecl) (c : Context) (b : Block) :
    blockMetrics m arrays c b = .ok (m.blockMetrics arrays c b) := by
  unfold blockMetrics
  rw [pressure_eq, ok_bind, sub_eq (m.one_le_interval arrays c _), ok_bind]
  rfl

/-! ## 5. Loops -/

end Guarded

/-- **A loop whose tiles are not empty**, if it has any. -/
def Loop.Tileable (l : Loop) : Prop := ∀ tile, l.effectiveTile = some tile → tile ≠ 0

namespace Guarded

/-- The flat body of a loop, where `c` is the context below the loop. -/
def flatBody (m : CostModel) (arrays : List ArrayDecl) (c : Context) (iv : String)
    (below : Forest) : Guarded FlatBody := do
  let blocks := below.flatten c 1
  let p ← pressure m arrays c
    (blocks.flatMap fun b => b.body.accesses.map (Issue.ofAccess b.context))
  return {
    depth := m.flatDepth arrays c blocks
    units := Count.sum (blocks.map fun b => Count.mul (m.units b.body) b.context.copies)
    pressure := p
    recurrent := carriesReduction (blocks.flatMap fun b => b.body.accesses) iv }

theorem flatBody_eq (m : CostModel) (arrays : List ArrayDecl) (c : Context) (iv : String)
    (below : Forest) : flatBody m arrays c iv below = .ok (m.flatBody arrays c iv below) := by
  unfold flatBody
  dsimp only
  rw [pressure_eq, ok_bind]
  rfl

/-- The cycles of one tile. -/
def tileLatency (l : Loop) (b : FlatBody) (tile : Nat) : Guarded Nat := do
  let iterations ← div tile (max l.directives.unroll 1)
  if l.directives.pipeline then
    return pipelinedLatency iterations (l.initiation b) b.depth
  else
    let stall ← sub b.pressure.interval 1
    return Count.mul iterations (Count.add b.depth stall)

theorem tileLatency_eq {b : FlatBody} (hb : 1 ≤ b.pressure.interval) (l : Loop) (tile : Nat) :
    tileLatency l b tile = .ok (l.tileLatency b tile) := by
  unfold tileLatency Loop.tileLatency
  rw [div_eq (Nat.ne_of_gt (Nat.le_max_right _ 1)), ok_bind]
  split
  · rfl
  · rw [sub_eq hb, ok_bind]
    rfl

/-- The units of a loop with a flat body: those of one iteration, which are shared in a pipelined
    loop. -/
def flatUnits (l : Loop) (b : FlatBody) : Guarded Nat :=
  if l.directives.pipeline then ceilDiv b.units (l.initiation b) else .ok b.units

theorem flatUnits_eq {b : FlatBody} (hb : b.units ≤ Count.limit) (l : Loop) :
    flatUnits l b = .ok (if l.directives.pipeline then Count.ceilDiv b.units (l.initiation b)
      else b.units) := by
  unfold flatUnits
  split
  · exact ceilDiv_eq hb _
  · rfl

/-- The metrics of a loop with a flat body: tiles one after the other. -/
def flatLoopMetrics (m : CostModel) (arrays : List ArrayDecl) (c : Context) (n : Nest) :
    Guarded Metrics :=
  match n.region.loop? with
  | none => .ok .empty
  | some l => do
    let body ← flatBody m arrays (c.enter arrays n) l.iv n.below
    let buffers ← tileBuffers c arrays n
    let interval := l.initiation body
    let units ← flatUnits l body
    let resources : Resources :=
      { computeUnits := units
        memoryPorts := body.pressure.ports
        storageElements := buffers.storage
        controlUnits := 1 }
    match l.trip.bounded, l.effectiveTile with
    | some trip, some tile =>
      let tiles ← div trip tile
      let oneTile ← tileLatency l body tile
      let latency := Count.mul tiles (Count.add oneTile (l.tileOverhead buffers))
      return {
        latency := .known latency
        interval := .known (if l.directives.pipeline then interval else latency)
        resources := resources }
    | _, _ =>
      return {
        latency := .unknown
        interval := if l.directives.pipeline then .known interval else .unknown
        resources := resources }

/-- **Loops with a flat body do not trap** if their tiles are not empty. -/
theorem flatLoopMetrics_eq (m : CostModel) (arrays : List ArrayDecl) (c : Context) {n : Nest}
    (h : ∀ l, n.region.loop? = some l → l.Tileable) :
    flatLoopMetrics m arrays c n = .ok (m.flatLoopMetrics arrays c n) := by
  unfold flatLoopMetrics CostModel.flatLoopMetrics
  cases hl : n.region.loop? with
  | none => rfl
  | some l =>
      have hunits := m.units_flatBody_le arrays (c.enter arrays n) l.iv n.below
      have hinterval : 1 ≤ (m.flatBody arrays (c.enter arrays n) l.iv n.below).pressure.interval :=
        m.one_le_interval arrays _ _
      dsimp only
      rw [flatBody_eq, ok_bind, tileBuffers_eq, ok_bind]
      generalize m.flatBody arrays (c.enter arrays n) l.iv n.below = body at hunits hinterval ⊢
      rw [flatUnits_eq hunits, ok_bind]
      cases hb : l.trip.bounded with
      | none => rfl
      | some trip =>
          cases ht : l.effectiveTile with
          | none => rfl
          | some tile =>
              dsimp only
              rw [div_eq (h l hl tile ht), ok_bind, tileLatency_eq hinterval, ok_bind]
              rfl

/-- The guards bite: **an empty tile traps**. -/
theorem flatLoopMetrics_of_empty_tile (m : CostModel) (arrays : List ArrayDecl) (c : Context)
    {n : Nest} {l : Loop} (hl : n.region.loop? = some l) (ht : l.effectiveTile = some 0) :
    flatLoopMetrics m arrays c n = .error .zeroDivisor := by
  obtain ⟨trip, hb, -⟩ := Option.map_eq_some_iff.mp ht
  have hunits := m.units_flatBody_le arrays (c.enter arrays n) l.iv n.below
  unfold flatLoopMetrics
  rw [hl]
  dsimp only
  rw [flatBody_eq, ok_bind, tileBuffers_eq, ok_bind, flatUnits_eq hunits, ok_bind, hb, ht]
  rfl

/-- The metrics of a loop around a body. -/
def outerLoopMetrics (arrays : List ArrayDecl) (c : Context) (n : Nest) (body : Metrics) :
    Guarded Metrics :=
  match n.region.loop? with
  | none => .ok body
  | some l => do
    let buffers ← tileBuffers c arrays n
    let resources : Resources :=
      { body.resources with
        storageElements := Count.add body.resources.storageElements buffers.storage
        controlUnits := Count.add body.resources.controlUnits 1 }
    match l.trip.bounded, l.effectiveTile with
    | some trip, some tile =>
      let iterations ← div tile (max l.directives.unroll 1)
      let oneTile := (body.latency.scale iterations).add (.known (l.tileOverhead buffers))
      let tiles ← div trip tile
      let latency := oneTile.scale tiles
      return ⟨latency, latency, resources⟩
    | _, _ => return ⟨.unknown, .unknown, resources⟩

/-- **Loops around a body do not trap** if their tiles are not empty. -/
theorem outerLoopMetrics_eq (arrays : List ArrayDecl) (c : Context) {n : Nest} (body : Metrics)
    (h : ∀ l, n.region.loop? = some l → l.Tileable) :
    outerLoopMetrics arrays c n body = .ok (CostModel.outerLoopMetrics arrays c n body) := by
  unfold outerLoopMetrics CostModel.outerLoopMetrics
  cases hl : n.region.loop? with
  | none => rfl
  | some l =>
      dsimp only
      rw [tileBuffers_eq, ok_bind]
      cases hb : l.trip.bounded with
      | none => rfl
      | some trip =>
          cases ht : l.effectiveTile with
          | none => rfl
          | some tile =>
              dsimp only
              rw [div_eq (Nat.ne_of_gt (Nat.le_max_right _ 1)), ok_bind, div_eq (h l hl tile ht),
                ok_bind]
              rfl

/-! ## 6. Scopes -/

/-- The memory of the arrays on the chip that live as long as a region. -/
def scopedStorage (d : Design) (n : Nest) (stages : List Span) : Guarded Nat := do
  let own := (d.scopedTo n.region.id).filter fun a => a.storage == .onChip
  let banks ← own.mapM fun a => do
    let once ← storageElements a.elements a.bits a.partition
    let touching ← touchingStages n.children stages a.name
    return if 1 < touching then Count.mul once 2 else once
  return Count.sum banks

theorem scopedStorage_eq (d : Design) {n : Nest} {stages : List Span}
    (h : Within stages n.children.length) :
    scopedStorage d n stages = .ok (d.scopedStorage n stages) := by
  unfold scopedStorage Design.scopedStorage
  dsimp only
  rw [mapM_eq (g := fun a : ArrayDecl =>
    if 1 < Design.touchingStages n.children stages a.name then Count.mul a.storageElements 2
    else a.storageElements) fun a _ => ?_]
  · rfl
  · have helements : a.elements ≤ Count.limit := Count.product_le_limit a.shape
    rw [storageElements_eq helements, ok_bind, touchingStages_eq h, ok_bind]
    rfl

end Guarded

end DesignSpace
