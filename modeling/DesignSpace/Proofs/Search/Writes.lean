/-
  Subject:   WHAT THE SEARCH OF A LEVEL WRITES: parameters that the level has, and no others. So the
             designs before and after it differ at the level only.

  * `Parameter.At`, `Registry.at_of_mem_standard`: what the standard operators change at a level;
  * `Parameter.At.unique`: a parameter belongs to one level;
  * `Progress.Sound.ofWrites`: what alike designs and writes at a level keep, its search keeps;
  * `Design.EditedAt.write`: **one write**;
  * `Progress.Sound.exists_editedAt`: **the search of a level.**
-/
import DesignSpace.Proofs.Estimate.Faster
import DesignSpace.Proofs.Operator.Domain
import DesignSpace.Proofs.Operator.Targets
import DesignSpace.Proofs.Search.Course

namespace DesignSpace

variable {spec : TargetSpec} {d c c' : Design} {level j : RegionId} {progress next : Progress}
  {report : LevelReport} {p : Parameter} {s : Setting}

/-! ## 1. Parameters of a level -/

/-- A parameter that a level has: one of its region, or the banks of an array whose scope it is. -/
def Parameter.At (d : Design) (level : RegionId) (p : Parameter) : Prop :=
  p.region? = some level ∨
    ∃ name a, p = .partition name ∧ d.array? name = some a ∧ d.scopeOf a = level

/-- **The standard operators** change nothing at a level but parameters that it has. -/
theorem Registry.at_of_mem_standard {a : Annotated} (hc : a.design.check = .ok ()) {o : Operator}
    (ho : o ∈ standard.operators) {p : Parameter} (hp : p ∈ o.targets a level) :
    p.At a.design level := by
  rcases mem_standard_iff.mp ho with rfl | rfl | rfl | rfl | rfl
  case inr.inr.inr.inl =>
    have hmem : p ∈ if partitionOperator.owns a level then
        (a.design.scopedTo level).map fun x => Parameter.partition x.name else [] := hp
    by_cases howns : partitionOperator.owns a level = true
    · rw [if_pos howns] at hmem
      obtain ⟨y, hy, rfl⟩ := List.mem_map.mp hmem
      obtain ⟨hyd, hscope⟩ := List.mem_filter.mp hy
      obtain ⟨x, hx⟩ := Option.isSome_iff_exists.mp (List.find?_isSome (p := fun b =>
        decide (b.name = y.name)).mpr ⟨y, hyd, decide_eq_true rfl⟩)
      have hnames := (Design.check_eq_ok_iff.mp hc).1
      have hxname : x.name = y.name := by simpa using List.find?_some hx
      obtain rfl := List.inj_on_of_nodup_map hnames (List.mem_of_find?_eq_some hx) hyd hxname
      exact .inr ⟨x.name, x, rfl, hx, of_decide_eq_true hscope⟩
    · rw [if_neg howns] at hmem
      exact absurd hmem List.not_mem_nil
  all_goals
    obtain ⟨-, rfl⟩ := Operator.mem_targets_single hp
    exact .inl rfl

theorem Parameter.At.of_bare {p : Parameter} (hp : p.At d level) (h : c.bare = d.bare) :
    p.At c level := by
  rcases hp with hp | ⟨name, b, rfl, hb, hs⟩
  · exact .inl hp
  · have hget := Design.array?_of_bare h name
    rw [hb] at hget
    obtain ⟨a, ha, hab⟩ := Option.map_eq_some_iff.mp hget
    exact .inr ⟨name, a, rfl, ha, (Design.scopeOf_of_bare h hab).trans hs⟩

/-- **A parameter belongs to one level.** -/
theorem Parameter.At.unique (h : p.At d level) (h' : p.At d j) : level = j := by
  rcases h with h | ⟨name, x, rfl, hx, rfl⟩
  · rcases h' with h' | ⟨_, _, rfl, -, -⟩
    · exact Option.some.inj (h.symm.trans h')
    · cases h
  · rcases h' with h' | ⟨_, y, hname, hy, rfl⟩
    · cases h'
    · obtain rfl := Parameter.partition.inj hname
      obtain rfl := Option.some.inj (hx.symm.trans hy)
      rfl

/-! ## 2. The trials of a level -/

/-- **What alike designs and writes at a level keep**, all trials of the level keep. -/
theorem LevelRun.Sound.ofWrites {old : List Point} {start : Point} {first run : LevelRun}
    (h : first.Sound spec d old start)
    (hreach : Reach (Explorer.new spec .standard) d level first run) {P : Design → Prop}
    (alike : ∀ {a b : Annotated}, a.Settled spec.estimator d → b.Settled spec.estimator d →
      a.design.Alike b.design → P a.design → P b.design)
    (write : ∀ {a b : Annotated} {o : Operator} {p : Parameter} {s : Setting},
      a.Settled spec.estimator d → o ∈ Registry.standard.operators → p ∈ o.targets a level →
      a.design.write p s = .ok b.design → P a.design → P b.design)
    (hp : P first.progress.annotated.design) : P run.progress.annotated.design := by
  induction hreach with
  | start => exact hp
  | @trial run o p current s next hreach hoffers hv ih =>
      have hsound := h.ofReach hreach
      have hsettled := hsound.progress.settled
      have ho : o ∈ Registry.standard.operators := Registry.mem_of_mem_ordered hoffers.operator
      obtain ⟨listed, hlisted, htarget⟩ := hoffers.target
      rw [Registry.targets_of_bare ho (hlisted.bare.trans hsettled.bare.symm)] at htarget
      cases hsound.trial_of_tryValue hv with
      | passed => exact ih
      | refused ha halike => exact alike hsettled ha halike ih
      | tried ha hw _ hback halike =>
          unfold Explorer.outcome
          dsimp only
          split
          · exact write hsettled ho htarget hw ih
          · exact alike hsettled hback halike ih

/-- The same of the search of a level. -/
theorem Progress.Sound.ofWrites (h : progress.Sound spec d)
    (hs : (Explorer.new spec .standard).searchLevel level progress = .ok (report, next))
    {P : Design → Prop}
    (alike : ∀ {a b : Annotated}, a.Settled spec.estimator d → b.Settled spec.estimator d →
      a.design.Alike b.design → P a.design → P b.design)
    (write : ∀ {a b : Annotated} {o : Operator} {p : Parameter} {s : Setting},
      a.Settled spec.estimator d → o ∈ Registry.standard.operators → p ∈ o.targets a level →
      a.design.write p s = .ok b.design → P a.design → P b.design)
    (hp : P progress.annotated.design) : P next.annotated.design := by
  obtain ⟨start, -, -, hfirst⟩ := @Progress.Sound.startLevel spec .standard d progress h level
  obtain ⟨_, run, -, hreach, -, rfl⟩ := h.reach_of_searchLevel hs
  refine hfirst.ofWrites hreach alike write ?_
  have hdesign : ((Explorer.new spec .standard).startLevel level progress).progress.annotated.design
      = progress.annotated.design := spec.estimator.design_refresh progress.annotated
  rw [hdesign]
  exact hp

/-! ## 3. Designs before and after -/

namespace Design.EditedAt

theorem refl (d : Design) (level : RegionId) : d.EditedAt d level :=
  ⟨rfl, fun _ h _ => h, fun _ h _ => h⟩

/-- **One write** at a level changes the region of the level, or an array whose scope it is. -/
theorem write (h : d.EditedAt c level) (hnames : (c.arrays.map ArrayDecl.name).Nodup)
    (hp : p.At c level) (hw : c.write p s = .ok c') : d.EditedAt c' level := by
  refine ⟨(bare_write hw).trans h.bare, fun r hr hid => ?_, fun a ha hscope => ?_⟩
  · have hr := h.regions r hr hid
    obtain ⟨id, n, hid', -, -, -, rfl⟩ | ⟨name, k, a, -, -, -, rfl⟩ := write_cases hw
    · obtain rfl : id = level := by
        rcases hp with hp | ⟨name, a, rfl, -, -⟩
        · exact Option.some.inj (hid'.symm.trans hp)
        · cases hid'
      rw [forest_updateRegion_map, Forest.regions_map]
      exact List.mem_map.mpr ⟨r, hr, if_neg hid⟩
    · exact hr
  · have ha := h.arrays a ha hscope
    obtain ⟨id, n, -, -, -, -, rfl⟩ | ⟨name, k, x, rfl, -, hx, rfl⟩ := write_cases hw
    · exact ha
    · refine (mem_update_iff hnames hx).mpr (.inr ⟨ha, fun hname => hscope ?_⟩)
      -- an array of the name would be the one that is written
      have hxname : x.name = name := by simpa using List.find?_some hx
      obtain rfl := List.inj_on_of_nodup_map hnames ha (List.mem_of_find?_eq_some hx)
        (hname.trans hxname.symm)
      rcases hp with hp | ⟨_, y, heq, hy, hlevel⟩
      · cases hp
      · obtain rfl := Parameter.partition.inj heq
        obtain rfl := Option.some.inj (hx.symm.trans hy)
        exact (scopeOf_of_bare h.bare rfl).symm.trans hlevel

end Design.EditedAt

/-- **The search of a level** leaves a design that, but for tiles as long as their loop, differs at
    the level from the one before. -/
theorem Progress.Sound.exists_editedAt (h : progress.Sound spec d)
    (hs : (Explorer.new spec .standard).searchLevel level progress = .ok (report, next)) :
    ∃ c, progress.annotated.design.EditedAt c level ∧ c.Alike next.annotated.design := by
  refine h.ofWrites hs
    (P := fun b => ∃ c, progress.annotated.design.EditedAt c level ∧ c.Alike b) ?_ ?_
    ⟨_, .refl _ _, .refl _⟩
  · rintro a b - - halike ⟨c, hc, hca⟩
    exact ⟨c, hc, hca.trans halike⟩
  · rintro a b o p s ha ho hp hw ⟨c, hc, hca⟩
    obtain ⟨c', hw', halike⟩ := hca.symm.exists_write hw
    have hrules := hca.symm.check ha.rules
    have hat := (Registry.at_of_mem_standard ha.rules ho hp).of_bare hca.symm.bare_eq
    exact ⟨c', hc.write (Design.check_eq_ok_iff.mp hrules).1 hat hw', halike.symm⟩

end DesignSpace
