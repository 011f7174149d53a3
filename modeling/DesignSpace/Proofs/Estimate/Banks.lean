/-
  Subject:   MORE BANKS MAKE NOTHING SLOWER. Banks matter to a latency in one place only: where the
             accesses of one step wait for the ports of an array.

  * `NoFewerBanks`: the array of a name has as many banks as before, or more;
  * `CostModel.exists_demandOn`: **one array**; `interval_le`: the accesses of one step;
  * `Loop.tileLatency_mono`: the cycles of a tile;
  * `CostModel.blockMetrics_atMost`, `flatLoopMetrics_atMost`: blocks, and loops with a flat body;
  * `Estimator.combine_atMost_of_flat`: **a region that is priced with no look at its parts.**
-/
import DesignSpace.Proofs.Estimate.Compose
import DesignSpace.Proofs.Estimate.Footprint

namespace DesignSpace

/-- **The array of a name has no fewer banks** than before, if there is one. -/
def NoFewerBanks (arrays arrays' : List ArrayDecl) (name : String) : Prop :=
  ∀ a a', (arrays.find? fun x => x.name = name) = some a →
    (arrays'.find? fun x => x.name = name) = some a' → a.partition ≤ a'.partition

theorem Cycles.atMost_known {a b : Nat} (h : a ≤ b) : (known a).AtMost (.known b) := by
  intro n hn
  exact ⟨a, Cycles.known.inj hn ▸ h, rfl⟩

/-! ## 1. The accesses of one step -/

section Arrays

variable {arrays arrays' : List ArrayDecl} {c : Context} {issues : List Issue} {n : Nest}
  {b : Block} {below : Forest}

/-- Where an array has more banks, accesses wait no longer for its ports. -/
theorem CostModel.ceilDiv_availablePorts_le {a a' : ArrayDecl} (hbare : a'.bare = a.bare)
    (h : a.partition ≤ a'.partition) (m : CostModel) (spread : Bool) (copies : Nat) :
    Count.ceilDiv copies (m.availablePorts c a' spread) ≤
      Count.ceilDiv copies (m.availablePorts c a spread) := by
  have hchip : c.isOnChip a' = c.isOnChip a := by
    show c.isOnChip a'.bare = c.isOnChip a.bare
    rw [hbare]
  unfold availablePorts
  rw [hchip]
  cases c.isOnChip a with
  | false => exact Nat.le_refl _
  | true =>
      have hbanks : (if spread then max a.partition 1 else 1) ≤
          if spread then max a'.partition 1 else 1 := by
        split <;> omega
      have hpos : 0 < if spread then max a.partition 1 else 1 := by
        split <;> omega
      rw [if_pos rfl, if_pos rfl]
      -- banks without ports are of no use, however many there are
      rcases Nat.eq_zero_or_pos m.portsPerBank with hzero | hports
      · rw [hzero, Count.mul, Count.mul, Nat.mul_zero, Nat.mul_zero]
      · refine Count.ceilDiv_anti ?_ (Count.mul_mono hbanks (Nat.le_refl _)) copies
        have hmul := Nat.mul_pos hpos hports
        unfold Count.mul Count.limit
        omega

variable (hbare : arrays'.map ArrayDecl.bare = arrays.map ArrayDecl.bare)
include hbare

namespace CostModel

/-- **One array**: what is asked of it is the same, and it is served no more slowly. -/
theorem exists_demandOn {name : String} (hbanks : NoFewerBanks arrays arrays' name) (m : CostModel)
    {x' : Nat × Nat} (h : m.demandOn arrays' c issues name = some x') :
    ∃ x, m.demandOn arrays c issues name = some x ∧
      Count.ceilDiv x'.1 x'.2 ≤ Count.ceilDiv x.1 x.2 := by
  obtain ⟨a', ha', rfl⟩ := Option.map_eq_some_iff.mp h
  have hfind := ArrayDecl.find?_of_bare hbare name
  rw [ha'] at hfind
  obtain ⟨a, ha, hab⟩ := Option.map_eq_some_iff.mp hfind.symm
  exact ⟨_, Option.map_eq_some_iff.mpr ⟨a, ha, rfl⟩,
    ceilDiv_availablePorts_le hab.symm (hbanks a a' ha ha') m _ _⟩

/-- **The accesses of one step** wait no longer. -/
theorem interval_le (hbanks : ∀ i ∈ issues, NoFewerBanks arrays arrays' i.array) (m : CostModel) :
    (m.pressure arrays' c issues).interval ≤ (m.pressure arrays c issues).interval := by
  obtain ⟨hone, hall⟩ := foldl_max_le_iff.mp
    (Nat.le_refl (m.pressure arrays c issues).interval)
  refine foldl_max_le_iff.mpr ⟨hone, fun q hq => ?_⟩
  obtain ⟨x', hx', rfl⟩ := List.mem_map.mp hq
  obtain ⟨name, hname, hdemand'⟩ := List.mem_filterMap.mp hx'
  obtain ⟨i, hi, rfl⟩ := List.mem_map.mp (List.mem_eraseDups.mp hname)
  obtain ⟨x, hdemand, hle⟩ := exists_demandOn hbare (hbanks i hi) m hdemand'
  exact Nat.le_trans hle
    (hall _ (List.mem_map_of_mem (List.mem_filterMap.mpr ⟨_, hname, hdemand⟩)))

/-! ## 2. Blocks and flat bodies -/

theorem blockMetrics_atMost (hbanks : ∀ x ∈ b.accesses, NoFewerBanks arrays arrays' x.array)
    (m : CostModel) :
    (m.blockMetrics arrays' c b).latency.AtMost (m.blockMetrics arrays c b).latency := by
  have hinterval : (m.pressure arrays' c (b.accesses.map (Issue.ofAccess c))).interval ≤
      (m.pressure arrays c (b.accesses.map (Issue.ofAccess c))).interval := by
    refine interval_le hbare (fun i hi => ?_) m
    obtain ⟨x, hx, rfl⟩ := List.mem_map.mp hi
    exact hbanks x hx
  have hline := straightLine_of_bare (c := c) hbare m b
  refine Cycles.atMost_known ?_
  rw [hline]
  unfold Count.add
  omega

/-- A flat body is as deep as before and starts its iterations no later. -/
theorem flatBody_le (hbanks : ∀ x ∈ below.accesses, NoFewerBanks arrays arrays' x.array)
    (m : CostModel) (iv : String) :
    (m.flatBody arrays' c iv below).depth = (m.flatBody arrays c iv below).depth ∧
    (m.flatBody arrays' c iv below).recurrent = (m.flatBody arrays c iv below).recurrent ∧
    (m.flatBody arrays' c iv below).pressure.interval ≤
      (m.flatBody arrays c iv below).pressure.interval := by
  refine ⟨?_, rfl, interval_le hbare (fun i hi => ?_) m⟩
  · show m.flatDepth arrays' c _ = m.flatDepth arrays c _
    rw [flatDepth, flatDepth, funext (straightLine_of_bare hbare m)]
  · obtain ⟨q, hq, hi⟩ := List.mem_flatMap.mp hi
    obtain ⟨x, hx, rfl⟩ := List.mem_map.mp hi
    exact hbanks x (Forest.mem_accesses_of_flatten hq hx)

end CostModel

omit hbare in
/-- A tile takes no longer where iterations start no later. -/
theorem Loop.tileLatency_mono {q q' : FlatBody} (hdepth : q'.depth = q.depth)
    (hrecurrent : q'.recurrent = q.recurrent)
    (hinterval : q'.pressure.interval ≤ q.pressure.interval) (l : Loop) (tile : Nat) :
    l.tileLatency q' tile ≤ l.tileLatency q tile := by
  unfold tileLatency
  cases hp : l.directives.pipeline with
  | false =>
      refine Count.mul_mono (Nat.le_refl _) ?_
      rw [hdepth]
      unfold Count.add
      omega
  | true =>
      have hstart : l.initiation q' ≤ l.initiation q := by
        unfold initiation
        rw [hp, hrecurrent, hdepth]
        show max (max _ _) 1 ≤ max (max _ _) 1
        omega
      have hmul := Count.mul_mono (Nat.le_refl (tile / max l.directives.unroll 1)) hstart
      show pipelinedLatency _ _ _ ≤ pipelinedLatency _ _ _
      rw [hdepth]
      unfold pipelinedLatency Count.add
      omega

theorem CostModel.flatLoopMetrics_atMost
    (hbanks : ∀ x ∈ n.below.accesses, NoFewerBanks arrays arrays' x.array) (m : CostModel) :
    (m.flatLoopMetrics arrays' c n).latency.AtMost (m.flatLoopMetrics arrays c n).latency := by
  unfold flatLoopMetrics
  cases n.region.loop? with
  | none => exact .refl _
  | some l =>
      obtain ⟨hdepth, hrecurrent, hinterval⟩ :=
        flatBody_le (c := c.enter arrays n) hbare hbanks m l.iv
      have hoverhead : l.tileOverhead (c.tileBuffers arrays' n) =
          l.tileOverhead (c.tileBuffers arrays n) := by
        rw [Loop.tileOverhead, Loop.tileOverhead, Context.transfer_of_bare hbare]
      dsimp only
      rw [hoverhead, Context.enter_of_bare hbare]
      split
      · next trip tile _ _ =>
        have htile := l.tileLatency_mono hdepth hrecurrent hinterval tile
        refine Cycles.atMost_known (Count.mul_mono (Nat.le_refl _) ?_)
        unfold Count.add
        omega
      · exact .refl _

end Arrays

/-! ## 3. Regions -/

/-- **A region that is priced with no look at its parts**: where no array that it accesses has
    fewer banks, it is no slower. -/
theorem Estimator.combine_atMost_of_flat {e : Estimator} {d d' : Design} {c : Context} {n : Nest}
    (hbare : d'.arrays.map ArrayDecl.bare = d.arrays.map ArrayDecl.bare) (hn : n.isFlat = true)
    (hbanks : ∀ x ∈ n.accesses, NoFewerBanks d.arrays d'.arrays x.array)
    (parts parts' : List Metrics) :
    (e.combine d' c n parts').latency.AtMost (e.combine d c n parts).latency := by
  rw [Nest.accesses_eq] at hbanks
  unfold Nest.isFlat at hn
  unfold combine
  cases hk : n.region.kind with
  | block b =>
      refine CostModel.blockMetrics_atMost hbare (fun x hx => hbanks x ?_) e.model
      rw [Region.accesses, hk]
      exact List.mem_append_left _ hx
  | loop l =>
      rw [hk] at hn
      have hn : (l.directives.pipeline || n.isInnermostLoop) = true := hn
      show (if _ then _ else _ : Metrics).latency.AtMost (if _ then _ else _ : Metrics).latency
      rw [if_pos hn, if_pos hn]
      exact CostModel.flatLoopMetrics_atMost hbare
        (fun x hx => hbanks x (List.mem_append_right _ hx)) e.model
  | func f => rw [hk] at hn; cases hn
  | dataflow => rw [hk] at hn; cases hn

end DesignSpace
