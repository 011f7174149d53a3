/-
  Subject:   EXACT DOMAINS. For each parameter that a standard operator has at a region, its domain
             lists the values that can be set, all of them and in ascending order.

  * `Setting.Before`: the order of settings;
  * `Operator.Exact`: what the domain of an exact operator is;
  * `unrollOperator.domain_eq`, and so on: what the domains are;
  * `Registry.exact_of_mem_standard`: the standard operators, one by one;
  * `Registry.standard_domain`: **a value can be set, and the operator sets it, exactly if it is in
    the domain.**
-/
import DesignSpace.Proofs.Design.Distinct
import DesignSpace.Proofs.Divisors
import DesignSpace.Proofs.Parameter.Admits
import DesignSpace.Operator

namespace DesignSpace

/-! ## 1. The order of settings -/

/-- Flags come before numbers, off before on, and a number before a greater one. -/
def Setting.Before : Setting → Setting → Prop
  | .flag a, .flag b => a = false ∧ b = true
  | .flag _, .factor _ => True
  | .factor _, .flag _ => False
  | .factor m, .factor n => m < n

theorem Setting.Before.asymm {s t : Setting} (h : s.Before t) : ¬ t.Before s := by
  cases s with
  | flag a =>
      cases t with
      | flag b =>
          obtain ⟨rfl, rfl⟩ := h
          exact nofun
      | factor n => exact id
  | factor m =>
      cases t with
      | flag b => exact absurd h id
      | factor n => exact Nat.lt_asymm h

theorem Setting.pairwise_factor {xs : List Nat} (h : xs.Pairwise (· < ·)) :
    (xs.map Setting.factor).Pairwise Before := List.pairwise_map.mpr h

theorem Setting.mem_map_factor_iff {xs : List Nat} {s : Setting} :
    s ∈ xs.map Setting.factor ↔ ∃ k, s = .factor k ∧ k ∈ xs := by
  rw [List.mem_map]
  constructor
  · intro h
    rcases h with ⟨k, hk, hs⟩
    exact ⟨k, hs.symm, hk⟩
  · intro h
    rcases h with ⟨k, hs, hk⟩
    exact ⟨k, hk, hs.symm⟩

/-! ## 2. Exact operators -/

/-- **The domain of a parameter is exact**: it lists the values that the design admits, ascending,
    and the parameter has a value. -/
structure Operator.Exact (o : Operator) (a : Annotated) (p : Parameter) : Prop where
  mem_iff : ∀ s, s ∈ o.domain a p ↔ a.design.Admits p s
  ascending : (o.domain a p).Pairwise Setting.Before
  readable : ∃ s, a.design.setting p = .ok s

/-- An operator with one parameter offers it where it applies. -/
theorem Operator.mem_targets_single {name : String} {applies : Annotated → RegionId → Bool}
    {parameter : RegionId → Parameter} {domain : Annotated → Parameter → List Setting}
    {a : Annotated} {id : RegionId} {p : Parameter}
    (h : p ∈ (Operator.single name applies parameter domain).targets a id) :
    applies a id = true ∧ p = parameter id := by
  have hmem : p ∈ if applies a id then [parameter id] else [] := h
  by_cases ha : applies a id = true
  · rw [if_pos ha] at hmem
    exact ⟨ha, List.mem_singleton.mp hmem⟩
  · rw [if_neg ha] at hmem
    exact absurd hmem List.not_mem_nil

variable {a : Annotated} {id : RegionId} {p : Parameter}

/-- A bounded loop of a design. -/
theorem Annotated.isStaticLoop_iff : a.isStaticLoop id = true ↔
    ∃ n l trip, a.design.find? id = some n ∧ n.region.kind = .loop l ∧
      l.trip.bounded = some trip := by
  unfold isStaticLoop Design.loop?
  cases hn : a.design.find? id with
  | none => simp
  | some n =>
      cases hk : n.region.kind with
      | loop l => simp [Region.loop?, hk, Option.isSome_iff_exists]
      | block _ => simp [Region.loop?, hk]
      | func _ => simp [Region.loop?, hk]
      | dataflow => simp [Region.loop?, hk]

theorem Design.loop?_eq {d : Design} {n : Nest} {l : Loop} (hn : d.find? id = some n)
    (hk : n.region.kind = .loop l) : d.loop? id = some l := by
  unfold loop? Region.loop?
  rw [hn]
  simp [hk]

/-! ## 3. The domains -/

section Domains

variable {n : Nest} {l : Loop} {trip : Nat}

theorem unrollOperator.domain_eq (hn : a.design.find? id = some n) (hk : n.region.kind = .loop l)
    (ht : l.trip.bounded = some trip) : unrollOperator.domain a (.unroll id) =
      (divisors (l.directives.tile.getD trip)).map .factor := by
  unfold unrollOperator Operator.single
  dsimp only
  rw [Design.loop?_eq hn hk, Option.bind_some, Loop.effectiveTile, ht]
  rfl

theorem tileOperator.domain_eq (hn : a.design.find? id = some n) (hk : n.region.kind = .loop l)
    (ht : l.trip.bounded = some trip) (hu : l.directives.unroll ≠ 0) :
    tileOperator.domain a (.tile id) =
      ((divisors trip).filter fun t => t % l.directives.unroll == 0).map .factor := by
  have hmax : max l.directives.unroll 1 = l.directives.unroll := by omega
  unfold tileOperator Operator.single
  dsimp only
  rw [Design.loop?_eq hn hk]
  dsimp only
  rw [ht, hmax]

theorem dataflowOperator.domain_eq (hn : a.design.find? id = some n) :
    dataflowOperator.domain a (.dataflow id) =
      ((List.range (max n.children.length 1)).map Nat.succ).map .factor := by
  unfold dataflowOperator Operator.single Annotated.find?
  dsimp only
  rw [hn, List.map_map]
  rfl

theorem partitionOperator.domain_eq {name : String} {x : ArrayDecl}
    (hx : a.design.array? name = some x) : partitionOperator.domain a (.partition name) =
      (divisors x.lastExtent).map .factor := by
  unfold partitionOperator
  dsimp only
  rw [hx]

/-- The operator for stages applies to functions. -/
theorem dataflowOperator.exists_func (h : dataflowOperator.applies a id = true) :
    ∃ n f, a.design.find? id = some n ∧ n.region.kind = .func f := by
  unfold dataflowOperator Operator.single Annotated.find? at h
  dsimp only at h
  cases hn : a.design.find? id with
  | none =>
      rw [hn] at h
      cases h
  | some n =>
      rw [hn] at h
      cases hk : n.region.kind with
      | func f => exact ⟨n, f, rfl, hk⟩
      | block _ => simp [hk] at h
      | loop _ => simp [hk] at h
      | dataflow => simp [hk] at h

/-- The operator for banks has a parameter for each array of a region. -/
theorem partitionOperator.exists_array (hp : p ∈ partitionOperator.targets a id) :
    ∃ name x, p = .partition name ∧ a.design.array? name = some x := by
  have hmem : p ∈ if partitionOperator.owns a id then
      (a.design.scopedTo id).map fun x => Parameter.partition x.name else [] := hp
  by_cases howns : partitionOperator.owns a id = true
  · rw [if_pos howns] at hmem
    rcases List.mem_map.mp hmem with ⟨y, hy, hname⟩
    have hfound : (a.design.array? y.name).isSome = true :=
      List.find?_isSome.mpr ⟨y, List.mem_of_mem_filter hy, decide_eq_true rfl⟩
    rcases Option.isSome_iff_exists.mp hfound with ⟨x, hx⟩
    exact ⟨y.name, x, hname.symm, hx⟩
  · rw [if_neg howns] at hmem
    exact absurd hmem List.not_mem_nil

end Domains

/-! ## 4. The standard operators -/

section Standard

variable (hd : a.design.preorder.Nodup) (hc : a.design.check = .ok ())

include hd hc

/-- Below a loop that the operator applies to all loops are bounded, so both flags can be set. -/
theorem pipelineOperator.exact (hp : p ∈ pipelineOperator.targets a id) :
    pipelineOperator.Exact a p := by
  rcases Operator.mem_targets_single hp with ⟨happlies, rfl⟩
  rcases Bool.and_eq_true_iff.mp happlies with ⟨hstatic, hinner⟩
  rcases Annotated.isStaticLoop_iff.mp hstatic with ⟨n, l, trip, hn, hk, -⟩
  have hinner : n.innerLoopsStatic = true := by
    unfold Annotated.find? at hinner
    rw [hn] at hinner
    exact hinner
  refine ⟨fun s => ?_, ?_, ?_⟩
  · rw [Design.admits_pipeline_iff hd hc hn hk]
    show s ∈ [Setting.flag false, Setting.flag true] ↔ _
    constructor
    · intro h
      rcases List.mem_pair.mp h with rfl | rfl
      · exact ⟨false, rfl, nofun⟩
      · exact ⟨true, rfl, fun _ => hinner⟩
    · intro h
      rcases h with ⟨on, rfl, -⟩
      cases on <;> simp
  · show [Setting.flag false, Setting.flag true].Pairwise Setting.Before
    exact List.pairwise_pair.mpr ⟨rfl, rfl⟩
  · refine ⟨.flag l.directives.pipeline, (Design.setting_eq_ok_iff rfl).mpr ⟨n, hn, ?_⟩⟩
    rw [hk]
    rfl

theorem unrollOperator.exact (hp : p ∈ unrollOperator.targets a id) :
    unrollOperator.Exact a p := by
  rcases Operator.mem_targets_single hp with ⟨happlies, rfl⟩
  rcases Annotated.isStaticLoop_iff.mp happlies with ⟨n, l, trip, hn, hk, ht⟩
  have hdomain := unrollOperator.domain_eq hn hk ht
  have hpos := (Design.rules_of_bounded hc hn hk ht).2.2.1
  refine ⟨fun s => ?_, ?_, ?_⟩
  · rw [hdomain, Design.admits_unroll_iff hd hc hn hk ht, Setting.mem_map_factor_iff]
    simp only [mem_divisors_iff, ne_eq, hpos, not_false_eq_true, and_true]
  · rw [hdomain]
    exact Setting.pairwise_factor (pairwise_divisors _)
  · refine ⟨.factor l.directives.unroll, (Design.setting_eq_ok_iff rfl).mpr ⟨n, hn, ?_⟩⟩
    rw [hk]
    rfl

theorem tileOperator.exact (hp : p ∈ tileOperator.targets a id) : tileOperator.Exact a p := by
  rcases Operator.mem_targets_single hp with ⟨happlies, rfl⟩
  rcases Annotated.isStaticLoop_iff.mp happlies with ⟨n, l, trip, hn, hk, ht⟩
  have hunroll := (Design.rules_of_bounded hc hn hk ht).1
  have hdomain := tileOperator.domain_eq hn hk ht hunroll
  have hpos := Trip.pos_of_bounded ht
  refine ⟨fun s => ?_, ?_, ?_⟩
  · rw [hdomain, Design.admits_tile_iff hd hc hn hk ht, Setting.mem_map_factor_iff]
    simp only [List.mem_filter, mem_divisors_iff, beq_iff_eq, Nat.dvd_iff_mod_eq_zero,
      Nat.ne_of_gt hpos, ne_eq, not_false_eq_true, and_true]
  · rw [hdomain]
    exact Setting.pairwise_factor ((pairwise_divisors trip).filter _)
  · refine ⟨.factor (l.directives.tile.getD trip), (Design.setting_eq_ok_iff rfl).mpr ⟨n, hn, ?_⟩⟩
    rw [hk]
    show l.effectiveTile.map _ = some _
    rw [Loop.effectiveTile, ht]
    rfl

theorem dataflowOperator.exact (hp : p ∈ dataflowOperator.targets a id) :
    dataflowOperator.Exact a p := by
  rcases Operator.mem_targets_single hp with ⟨happlies, rfl⟩
  rcases dataflowOperator.exists_func happlies with ⟨n, f, hn, hk⟩
  have hdomain := dataflowOperator.domain_eq hn
  refine ⟨fun s => ?_, ?_, ?_⟩
  · rw [hdomain, Design.admits_dataflow_iff hd hc hn hk, Setting.mem_map_factor_iff]
    refine exists_congr fun k => and_congr_right fun _ => ?_
    rw [List.mem_map]
    constructor
    · intro h
      rcases h with ⟨i, hi, rfl⟩
      have hlt := List.mem_range.mp hi
      omega
    · intro h
      refine ⟨k - 1, List.mem_range.mpr ?_, ?_⟩ <;> omega
  · rw [hdomain]
    refine Setting.pairwise_factor (List.pairwise_map.mpr ?_)
    exact List.pairwise_lt_range.imp fun h => Nat.succ_lt_succ h
  · refine ⟨.factor f.directives.dataflow, (Design.setting_eq_ok_iff rfl).mpr ⟨n, hn, ?_⟩⟩
    rw [hk]
    rfl

omit hd in
theorem partitionOperator.exact (hp : p ∈ partitionOperator.targets a id) :
    partitionOperator.Exact a p := by
  rcases partitionOperator.exists_array hp with ⟨name, x, rfl, hx⟩
  have hdomain := partitionOperator.domain_eq hx
  have hpos := Design.lastExtent_pos hc hx
  refine ⟨fun s => ?_, ?_, ⟨_, Design.setting_partition_eq_ok_iff.mpr ⟨x, hx, rfl⟩⟩⟩
  · rw [hdomain, Design.admits_partition_iff hc hx, Setting.mem_map_factor_iff]
    refine exists_congr fun k => and_congr_right fun _ => ?_
    rw [mem_divisors_iff]
    constructor
    · intro h
      exact ⟨Nat.pos_of_dvd_of_pos h.1 hpos, h.1⟩
    · intro h
      exact ⟨h.2, Nat.ne_of_gt hpos⟩
  · rw [hdomain]
    exact Setting.pairwise_factor (pairwise_divisors _)

end Standard

/-- An exact operator that does not refuse sets what the design admits, and nothing else. -/
theorem Operator.Exact.isOk_apply_iff {o : Operator} (h : o.Exact a p)
    (hd : a.design.preorder.Nodup) (ho : o.refuses = false) (s : Setting) :
    (o.apply a p s).1.isOk = true ↔ a.design.Admits p s := by
  unfold Operator.apply
  rw [if_neg (Bool.eq_false_iff.mp ho)]
  by_cases hs : s ∈ o.domain a p
  · rw [if_pos (List.contains_iff_mem.mpr hs)]
    exact Annotated.isOk_set_iff hd p s
  · rw [if_neg fun hmem => hs (List.contains_iff_mem.mp hmem)]
    exact iff_of_false nofun fun hadmits => hs ((h.mem_iff s).mpr hadmits)

/-- **An exact domain goes by what can be set**: two designs that admit the same values have the
    same domain. -/
theorem Operator.Exact.domain_eq {o : Operator} {b : Annotated} (h : o.Exact a p)
    (h' : o.Exact b p) (hsame : ∀ s, b.design.Admits p s ↔ a.design.Admits p s) :
    o.domain b p = o.domain a p := by
  have hnodup : ∀ {xs : List Setting}, xs.Pairwise Setting.Before → xs.Nodup := fun hxs =>
    hxs.imp fun hbefore => by
      rintro rfl
      exact hbefore.asymm hbefore
  refine List.Perm.eq_of_pairwise (fun _ _ _ _ hst hts => absurd hts hst.asymm) h'.ascending
    h.ascending ?_
  refine (List.perm_ext_iff_of_nodup (hnodup h'.ascending) (hnodup h.ascending)).mpr fun s => ?_
  rw [h'.mem_iff, h.mem_iff, hsame]

namespace Registry

theorem exact_of_mem_standard (hd : a.design.preorder.Nodup) (hc : a.design.check = .ok ())
    {o : Operator} (ho : o ∈ standard.operators) (hp : p ∈ o.targets a id) :
    o.Exact a p ∧ o.refuses = false := by
  rcases mem_standard_iff.mp ho with rfl | rfl | rfl | rfl | rfl
  · exact ⟨pipelineOperator.exact hd hc hp, rfl⟩
  · exact ⟨unrollOperator.exact hd hc hp, rfl⟩
  · exact ⟨tileOperator.exact hd hc hp, rfl⟩
  · exact ⟨partitionOperator.exact hc hp, rfl⟩
  · exact ⟨dataflowOperator.exact hd hc hp, rfl⟩

/-- **The domains of the standard operators are exact.** In a design with different numbers that
    keeps the rules, take a parameter that a standard operator has at a region. A value is in the
    domain exactly if the parameter can be set to it, and exactly if the operator sets it; the
    domain ascends, and the value that the parameter has is in it. -/
theorem standard_domain (hd : a.design.preorder.Nodup) (hc : a.design.check = .ok ())
    {o : Operator} (ho : o ∈ standard.operators) (hp : p ∈ o.targets a id) :
    (∀ s, (s ∈ o.domain a p ↔ (a.set p s).1.isOk = true) ∧
      (s ∈ o.domain a p ↔ (o.apply a p s).1.isOk = true)) ∧
    (o.domain a p).Pairwise Setting.Before ∧
    ∃ s, a.design.setting p = .ok s ∧ s ∈ o.domain a p := by
  have hexact := exact_of_mem_standard hd hc ho hp
  rcases hexact with ⟨h, hrefuses⟩
  refine ⟨fun s => ⟨?_, ?_⟩, h.ascending, ?_⟩
  · rw [h.mem_iff, Annotated.isOk_set_iff hd]
  · rw [h.mem_iff, h.isOk_apply_iff hd hrefuses]
  · rcases h.readable with ⟨s, hs⟩
    exact ⟨s, hs, (h.mem_iff s).mpr (Design.admits_setting hd hc hs)⟩

/-- The tiles of a loop of sixteen iterations that is unrolled twice. -/
theorem standard_domain_smoothing :
    tileOperator ∈ standard.operators ∧
      Parameter.tile 1 ∈ tileOperator.targets ⟨Smoothing.design, .empty⟩ 1 ∧
      tileOperator.domain ⟨Smoothing.design, .empty⟩ (.tile 1) =
        [.factor 2, .factor 4, .factor 8, .factor 16] ∧
      ∀ s, s ∈ tileOperator.domain ⟨Smoothing.design, .empty⟩ (.tile 1) ↔
        ((⟨Smoothing.design, .empty⟩ : Annotated).set (.tile 1) s).1.isOk = true := by
  have hoperator : tileOperator ∈ standard.operators := by
    show tileOperator ∈ [_, _, tileOperator, _, _]
    simp
  have htarget : Parameter.tile 1 ∈ tileOperator.targets ⟨Smoothing.design, .empty⟩ 1 := by decide
  have hexact := standard_domain (a := ⟨Smoothing.design, .empty⟩)
    (Listing.nodup_of_design Smoothing.design_listing)
    (Listing.tree_of_design Smoothing.design_listing).2 hoperator htarget
  exact ⟨hoperator, htarget, by decide, fun s => (hexact.1 s).1⟩

end Registry

end DesignSpace
