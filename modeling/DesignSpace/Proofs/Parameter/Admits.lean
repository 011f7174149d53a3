/-
  Subject:   WHICH VALUES CAN BE SET. The rules for a whole design, asked after a write, come down
             to one condition on the value for each of the five parameters.

  * `Design.Admits`: a value can be written, and the result keeps the rules;
  * `Annotated.isOk_set_iff`: setting a parameter succeeds for exactly those values;
  * `Design.admits_pipeline_iff`, `admits_unroll_iff`, `admits_tile_iff`, `admits_partition_iff`,
    `admits_dataflow_iff`: **the conditions**;
  * `Design.admits_setting`: the value that is there can be set again.
-/
import DesignSpace.Proofs.Design.Rules
import DesignSpace.Proofs.Parameter.Stale

namespace DesignSpace

/-! ## 1. Values that can be set -/

/-- A parameter has a value, another one can be written, and the design with it keeps the rules. -/
def Design.Admits (d : Design) (p : Parameter) (s : Setting) : Prop :=
  ∃ previous d', d.setting p = .ok previous ∧ d.write p s = .ok d' ∧ d'.check = .ok ()

theorem Annotated.isOk_set_iff {a : Annotated} (hd : a.design.preorder.Nodup) (p : Parameter)
    (s : Setting) : (a.set p s).1.isOk = true ↔ a.design.Admits p s := by
  have hcases := a.set_cases hd p s
  constructor
  · intro hok
    rcases hcases with ⟨err, hset⟩ | ⟨previous, d, hs, hw, hc, -⟩ | ⟨d, defect, back, -, -, -, hset⟩
    · rw [hset] at hok
      cases hok
    · exact ⟨previous, d, hs, hw, hc⟩
    · rw [hset] at hok
      cases hok
  · intro hadmits
    rcases hadmits with ⟨previous, d, hs, hw, hc⟩
    unfold set
    simp only [hs, hw, hc]
    rfl

theorem Trip.pos_of_bounded {t : Trip} {n : Nat} (h : t.bounded = some n) : 0 < n := by
  cases t with
  | symbolic _ => cases h
  | static m =>
      unfold bounded at h
      dsimp only at h
      by_cases hm : 0 < m
      · rw [if_pos hm] at h
        rw [← Option.some.inj h]
        exact hm
      · rw [if_neg hm] at h
        cases h

/-- The value that is there, written again, is the same but for a tile as long as the loop. -/
theorem Parameter.plain_change_self {p : Parameter} {s : Setting} {k : Kind}
    (h : p.value? k = some s) : (p.change s k).plain = k.plain := by
  have htwice : p.change s (p.change s k) = p.change s k := by
    cases p <;> cases s <;> cases k <;> rfl
  rw [← htwice]
  exact plain_change_previous h s

namespace Design

variable {d : Design} {id : RegionId} {n : Nest} {l : Loop} {f : Func} {p : Parameter}
  {s previous : Setting} {name : String}

/-! ## 2. The rules for one nest -/

theorem checkNest_loop_iff (hk : n.region.kind = .loop l) :
    d.checkNest n = .ok () ↔ l.check n.innerLoopsStatic = .ok () := by
  unfold checkNest
  simp only [hk]
  exact Attempt.mapError_eq_ok_iff

theorem checkNest_func_iff (hk : n.region.kind = .func f) :
    d.checkNest n = .ok () ↔
      1 ≤ f.directives.dataflow ∧ f.directives.dataflow ≤ max n.children.length 1 := by
  unfold checkNest
  simp only [hk]
  rw [demand_eq_ok_iff, Bool.and_eq_true, decide_eq_true_eq, decide_eq_true_eq]

/-- A region of a design that is accepted keeps its rules. -/
theorem checkNest_of_find? (hc : d.check = .ok ()) (hn : d.find? id = some n) :
    d.checkNest n = .ok () :=
  (check_eq_ok_iff.mp hc).2.2 n (Forest.find?_mem hn).1

/-- **A value of a region** can be set if the region then keeps its rules. -/
theorem admits_iff_of_region (hd : d.preorder.Nodup) (hc : d.check = .ok ())
    (hp : p.region? = some id) (hn : d.find? id = some n)
    (hv : p.value? n.region.kind = some previous) :
    d.Admits p s ↔ p.accepts s = true ∧
      d.checkNest ⟨{ n.region with kind := p.change s n.region.kind }, n.below⟩ = .ok () := by
  have hcheck := check_updateRegion hd hc hn (p.bare_change s)
  constructor
  · intro h
    rcases h with ⟨_, d', -, hw, hc'⟩
    rcases (write_eq_ok_iff hp).mp hw with ⟨ha, -, hd'⟩
    rw [hd', hcheck] at hc'
    exact ⟨ha, hc'⟩
  · intro h
    have hsuits := Parameter.suits_of_value? hv
    exact ⟨previous, _, (setting_eq_ok_iff hp).mpr ⟨n, hn, hv⟩,
      (write_eq_ok_iff hp).mpr ⟨h.1, ⟨n, hn, hsuits⟩, rfl⟩, hcheck.mpr h.2⟩

/-- A parameter of a region that takes numbers. -/
theorem admits_iff_of_factor (hd : d.preorder.Nodup) (hc : d.check = .ok ())
    (hp : p.region? = some id) (hn : d.find? id = some n)
    (hv : p.value? n.region.kind = some previous)
    (ha : ∀ s, p.accepts s = true ↔ ∃ k, s = .factor k) {P : Nat → Prop}
    (hP : ∀ k, d.checkNest
      ⟨{ n.region with kind := p.change (.factor k) n.region.kind }, n.below⟩ = .ok () ↔ P k) :
    d.Admits p s ↔ ∃ k, s = .factor k ∧ P k := by
  rw [admits_iff_of_region hd hc hp hn hv, ha]
  constructor
  · intro h
    rcases h with ⟨⟨k, rfl⟩, hcheck⟩
    exact ⟨k, rfl, (hP k).mp hcheck⟩
  · intro h
    rcases h with ⟨k, rfl, hk⟩
    exact ⟨⟨k, rfl⟩, (hP k).mpr hk⟩

/-! ## 3. Loops -/

section Loops

variable (hd : d.preorder.Nodup) (hc : d.check = .ok ()) (hn : d.find? id = some n)
  (hk : n.region.kind = .loop l)

include hc hn hk

/-- What is known of a bounded loop of a design that is accepted. -/
theorem rules_of_bounded {trip : Nat} (ht : l.trip.bounded = some trip) :
    l.directives.unroll ≠ 0 ∧ (l.directives.pipeline = true → n.innerLoopsStatic = true) ∧
      l.directives.tile.getD trip ≠ 0 ∧ l.directives.tile.getD trip ∣ trip ∧
      l.directives.unroll ∣ l.directives.tile.getD trip := by
  have hl := Loop.check_eq_ok_iff.mp ((checkNest_loop_iff hk).mp (checkNest_of_find? hc hn))
  rw [ht] at hl
  exact hl

include hd

/-- **A loop can be pipelined** above bounded loops only, and it need not be. -/
theorem admits_pipeline_iff : d.Admits (.pipeline id) s ↔
    ∃ on, s = .flag on ∧ (on = true → n.innerLoopsStatic = true) := by
  have hl := Loop.check_eq_ok_iff.mp ((checkNest_loop_iff hk).mp (checkNest_of_find? hc hn))
  have hv : (Parameter.pipeline id).value? n.region.kind = some (.flag l.directives.pipeline) := by
    rw [hk]
    rfl
  rw [admits_iff_of_region hd hc rfl hn hv, hk]
  cases s with
  | factor u =>
      constructor
      · intro h
        cases h.1
      · intro h
        rcases h with ⟨on, hon, -⟩
        cases hon
  | flag on =>
      have hcheck : d.checkNest ⟨{ n.region with
          kind := (Parameter.pipeline id).change (.flag on) (.loop l) }, n.below⟩ = .ok () ↔ _ :=
        checkNest_loop_iff rfl
      rw [hcheck, Loop.check_eq_ok_iff]
      constructor
      · intro h
        exact ⟨on, rfl, h.2.2.1⟩
      · intro h
        rcases h with ⟨_, ⟨⟩, hstatic⟩
        exact ⟨rfl, hl.1, hstatic, hl.2.2⟩

/-- **The unroll factors** of a bounded loop are the divisors of its tile. -/
theorem admits_unroll_iff {trip : Nat} (ht : l.trip.bounded = some trip) :
    d.Admits (.unroll id) s ↔ ∃ u, s = .factor u ∧ u ∣ l.directives.tile.getD trip := by
  have hl := rules_of_bounded hc hn hk ht
  rcases hl with ⟨-, hpipeline, hpos, htile, -⟩
  have hv : (Parameter.unroll id).value? n.region.kind = some (.factor l.directives.unroll) := by
    rw [hk]
    rfl
  refine admits_iff_of_factor hd hc rfl hn hv (fun s => by cases s <;> simp [Parameter.accepts])
    fun u => ?_
  rw [checkNest_loop_iff (congrArg ((Parameter.unroll id).change (.factor u)) hk),
    Loop.check_eq_ok_iff]
  dsimp only
  rw [ht]
  constructor
  · intro h
    exact h.2.2.2.2
  · intro hu
    have hne : u ≠ 0 := fun hzero => hpos (Nat.eq_zero_of_zero_dvd (hzero ▸ hu))
    exact ⟨hne, hpipeline, hpos, htile, hu⟩

/-- **The tiles** of a bounded loop are the divisors of the trip count that the unroll factor
    divides. The trip count is one of them, though it is written as none. -/
theorem admits_tile_iff {trip : Nat} (ht : l.trip.bounded = some trip) :
    d.Admits (.tile id) s ↔ ∃ t, s = .factor t ∧ t ∣ trip ∧ l.directives.unroll ∣ t := by
  have hl := rules_of_bounded hc hn hk ht
  rcases hl with ⟨hunroll, hpipeline, -, -, -⟩
  have hv : (Parameter.tile id).value? n.region.kind =
      some (.factor (l.directives.tile.getD trip)) := by
    rw [hk]
    show l.effectiveTile.map _ = _
    rw [Loop.effectiveTile, ht]
    rfl
  refine admits_iff_of_factor hd hc rfl hn hv (fun s => by cases s <;> simp [Parameter.accepts])
    fun t => ?_
  have htile : (if l.trip.bounded = some t then none else some t).getD trip = t := by
    rw [ht]
    by_cases hfull : trip = t
    · rw [if_pos (congrArg some hfull), hfull]
      rfl
    · rw [if_neg fun h => hfull (Option.some.inj h)]
      rfl
  rw [checkNest_loop_iff (congrArg ((Parameter.tile id).change (.factor t)) hk),
    Loop.check_eq_ok_iff]
  dsimp only
  rw [ht] at htile ⊢
  dsimp only
  rw [htile]
  constructor
  · intro h
    exact h.2.2.2
  · intro h
    have hpos := Trip.pos_of_bounded ht
    have hne : t ≠ 0 := by
      intro hzero
      have := Nat.eq_zero_of_zero_dvd (hzero ▸ h.1)
      omega
    exact ⟨hunroll, hpipeline, hne, h⟩

end Loops

/-! ## 4. Functions and arrays -/

/-- **The numbers of stages** of a function go from one to one for each part. -/
theorem admits_dataflow_iff (hd : d.preorder.Nodup) (hc : d.check = .ok ())
    (hn : d.find? id = some n) (hk : n.region.kind = .func f) :
    d.Admits (.dataflow id) s ↔ ∃ k, s = .factor k ∧ 1 ≤ k ∧ k ≤ max n.children.length 1 := by
  have hv : (Parameter.dataflow id).value? n.region.kind =
      some (.factor f.directives.dataflow) := by
    rw [hk]
    rfl
  refine admits_iff_of_factor hd hc rfl hn hv (fun s => by cases s <;> simp [Parameter.accepts])
    fun k => ?_
  rw [checkNest_func_iff (congrArg ((Parameter.dataflow id).change (.factor k)) hk)]
  exact Iff.rfl

theorem lastExtent_pos (hc : d.check = .ok ()) {a : ArrayDecl} (ha : d.array? name = some a) :
    0 < a.lastExtent := by
  have hrules := ((check_eq_ok_iff.mp hc).2.1 a (List.mem_of_find?_eq_some ha)).1
  rcases a.check_eq_ok_iff.mp hrules with ⟨⟨hne, hpos⟩, -⟩
  have hlast := List.getLast?_eq_some_getLast hne
  unfold ArrayDecl.lastExtent
  rw [hlast]
  exact hpos _ (List.getLast_mem hne)

/-- **The numbers of banks** of an array are the divisors of its last extent. -/
theorem admits_partition_iff (hc : d.check = .ok ()) {a : ArrayDecl}
    (ha : d.array? name = some a) :
    d.Admits (.partition name) s ↔ ∃ k, s = .factor k ∧ 0 < k ∧ k ∣ a.lastExtent := by
  have hrules := ((check_eq_ok_iff.mp hc).2.1 a (List.mem_of_find?_eq_some ha)).1
  rcases a.check_eq_ok_iff.mp hrules with ⟨hshape, hbits, -⟩
  have hbanks : ∀ k, (d.updateArray name fun a => { a with partition := k }).check = .ok () ↔
      0 < k ∧ k ∣ a.lastExtent := by
    intro k
    rw [check_updateArray hc ha (banking_partition k), ArrayDecl.check_eq_ok_iff]
    constructor
    · intro h
      exact ⟨h.2.2.1, Nat.dvd_of_mod_eq_zero h.2.2.2⟩
    · intro h
      exact ⟨hshape, hbits, h.1, Nat.mod_eq_zero_of_dvd h.2⟩
  constructor
  · intro h
    rcases h with ⟨_, d', -, hw, hc'⟩
    rcases write_partition_eq_ok_iff.mp hw with ⟨k, _, hk, -, hd'⟩
    rw [hd', hbanks] at hc'
    exact ⟨k, hk, hc'⟩
  · intro h
    rcases h with ⟨k, hk, hrange⟩
    exact ⟨_, _, setting_partition_eq_ok_iff.mpr ⟨a, ha, rfl⟩,
      write_partition_eq_ok_iff.mpr ⟨k, a, hk, ha, rfl⟩, (hbanks k).mpr hrange⟩

/-! ## 5. The value that is there -/

/-- **The value that is there** can be set again, whatever the parameter. -/
theorem admits_setting (hd : d.preorder.Nodup) (hc : d.check = .ok ())
    (hs : d.setting p = .ok s) : d.Admits p s := by
  cases hp : p.region? with
  | some id =>
      rcases (setting_eq_ok_iff hp).mp hs with ⟨n, hn, hv⟩
      refine (admits_iff_of_region hd hc hp hn hv).mpr ⟨Parameter.accepts_of_value? hv, ?_⟩
      -- a tile as long as the loop is written as none, which the rules do not tell apart
      have hplain : Region.plain { n.region with kind := p.change s n.region.kind } =
          n.region.plain := by
        unfold Region.plain
        rw [Parameter.plain_change_self hv]
      rw [← checkNest_plain, checkNest_map directing_plain]
      show d.checkNest ⟨Region.plain { n.region with kind := p.change s n.region.kind }, _⟩ = _
      rw [hplain, ← checkNest_map directing_plain n, checkNest_plain]
      exact checkNest_of_find? hc hn
  | none =>
      cases p with
      | partition name =>
          rcases setting_partition_eq_ok_iff.mp hs with ⟨a, ha, rfl⟩
          have hrules := ((check_eq_ok_iff.mp hc).2.1 a (List.mem_of_find?_eq_some ha)).1
          rcases a.check_eq_ok_iff.mp hrules with ⟨-, -, hpos, hmod⟩
          exact (admits_partition_iff hc ha).mpr ⟨_, rfl, hpos, Nat.dvd_of_mod_eq_zero hmod⟩
      | pipeline _ => cases hp
      | unroll _ => cases hp
      | tile _ => cases hp
      | dataflow _ => cases hp

end Design

end DesignSpace
