/-
  Subject:   THE TWO WAYS OF UPKEEP AGREE. On a design whose table is complete, estimates that are
             kept are the ones that are made anew, for trials and for what is taken back.

  * `Upkeep.revert_agree`: **a trial that is taken back leaves one and the same complete table**;
  * `Explorer.naive`: the explorer that estimates everything anew, each time.
-/
import DesignSpace.Search.Explore
import DesignSpace.Proofs.Parameter.Stale

namespace DesignSpace

/-! ## 1. Trials -/

namespace Annotated

variable {e : Estimator} {a b : Annotated}

/-- **What was kept, put back**: the entries from before a write where they are stale, and those
    after it elsewhere, complete the table of the design with the value before. -/
theorem Complete.restore {d d' back : Design} {p : Parameter} {s : Setting} {t u : Table}
    (h : Complete e ⟨d, t⟩) (h' : Complete e ⟨d', u⟩) (hback : d'.write p s = .ok back)
    (halike : d.Alike back) (hstale : ∀ id, id ∈ d.stale p ↔ id ∈ back.stale p) :
    Complete e ⟨back, (u.invalidate (back.stale p)).restore (t.snapshot (d.stale p))⟩ where
  distinct := (h.ofAlike halike).distinct
  ascending := Table.ascending_restore (Table.ascending_invalidate h'.ascending _) _
  full id := by
    show ((u.invalidate (back.stale p)).restore (t.snapshot (d.stale p))).get? id =
      e.estimate? back id
    rw [Table.get?_restore_snapshot, Table.get?_invalidate]
    by_cases hid : id ∈ d.stale p
    · rw [if_pos hid]
      exact (h.ofAlike halike).full id
    · have hb : id ∉ back.stale p := fun hb => hid ((hstale id).mpr hb)
      have hd' : id ∉ d'.stale p := fun hb' => hb ((Design.mem_stale_write hback).mpr hb')
      rw [if_neg hid, if_neg hb, e.estimate?_write h'.distinct hback hd']
      exact h'.full id

end Annotated

namespace Upkeep

variable {e : Estimator} {before a : Annotated} {p : Parameter} {s : Setting} {change : Change}

/-- **A trial that is taken back** leaves the same in both ways: the design from before but for
    tiles as long as their loop, with a complete table. -/
theorem revert_agree (hb : before.Complete e) (hset : before.set p s = (.ok change, a)) :
    ∃ back, (incremental e).revert before (e.refresh a).2 change = .ok back ∧
      (fromScratch e).revert before (e.refresh a).2 change = .ok back ∧
      back.Complete e ∧ before.design.Alike back.design := by
  obtain ⟨_, hset'⟩ | ⟨previous, d, hprevious, hw, -, hset'⟩ | ⟨_, _, _, _, _, _, hset'⟩ :=
    before.set_cases hb.distinct p s
  · rw [hset] at hset'
    cases hset'
  · rw [hset] at hset'
    obtain ⟨hchange, rfl⟩ := Prod.mk.inj hset'
    obtain rfl := Except.ok.inj hchange
    obtain ⟨back, hback, halike⟩ := Design.write_previous hb.distinct hprevious hw
    -- `after` is the trial with its estimates
    have hafter : Annotated.Complete e (e.refresh ⟨d, before.table.invalidate (d.stale p)⟩).2 :=
      (hb.upToDate.write hw).complete_refresh
    obtain ⟨u, hu⟩ : ∃ u, (e.refresh ⟨d, before.table.invalidate (d.stale p)⟩).2 = ⟨d, u⟩ :=
      ⟨_, congrArg Prod.snd (e.refresh_eq_settle _)⟩
    rw [hu] at hafter ⊢
    have hundo : (Annotated.mk d u).undo ⟨p, previous⟩ =
        .ok ⟨back, u.invalidate (back.stale p)⟩ := Annotated.undo_eq_ok_iff.mpr ⟨back, hback, rfl⟩
    have hstale : ∀ id, id ∈ before.design.stale p ↔ id ∈ back.stale p := fun id =>
      (Design.mem_stale_write hw).symm.trans (Design.mem_stale_write hback).symm
    have hrestored := hb.restore hafter hback halike hstale
    refine ⟨_, Attempt.bind_eq_ok_iff.mpr ⟨_, hundo, rfl⟩,
      Attempt.bind_eq_ok_iff.mpr ⟨_, hundo, ?_⟩, hrestored, halike⟩
    have hfresh := (Annotated.upToDate_empty e hrestored.distinct).complete_refresh
    exact congrArg Except.ok (hfresh.eq hrestored (e.design_refresh _))
  · rw [hset] at hset'
    cases hset'

end Upkeep

/-! ## 2. The naive explorer -/

/-- The explorer that estimates everything anew, each time. -/
def Explorer.naive (spec : TargetSpec) (registry : Registry) : Explorer where
  spec := spec
  registry := registry
  upkeep := .fromScratch spec.estimator

namespace Explorer

variable {x y : Explorer}

/-! What an explorer does apart from its upkeep depends on its target and its operators. -/

theorem spec_naive (spec : TargetSpec) (registry : Registry) :
    (naive spec registry).spec = (new spec registry).spec := rfl

theorem registry_naive (spec : TargetSpec) (registry : Registry) :
    (naive spec registry).registry = (new spec registry).registry := rfl

theorem spent_congr (h : y.spec = x.spec) : y.spent = x.spent := by
  funext tried
  unfold spent
  rw [h]

theorem candidate_congr (h : y.spec = x.spec) : y.candidate = x.candidate := by
  funext level a root move
  unfold candidate
  rw [h]

theorem operators_congr (hs : y.spec = x.spec) (hr : y.registry = x.registry) :
    y.operators = x.operators := by
  unfold operators
  rw [hs, hr]

theorem levels_congr (hs : y.spec = x.spec) (hr : y.registry = x.registry) :
    y.levels = x.levels := by
  funext a
  unfold levels
  rw [hs, hr]

theorem reportLevel_congr (hs : y.spec = x.spec) (hr : y.registry = x.registry) :
    y.reportLevel = x.reportLevel := by
  funext level run
  unfold reportLevel assignment
  rw [operators_congr hs hr]

theorem checkPriority_congr (hs : y.spec = x.spec) (hr : y.registry = x.registry) :
    y.checkPriority = x.checkPriority := by
  unfold checkPriority
  rw [hs, hr]

theorem misses_congr (h : y.spec = x.spec) : y.misses = x.misses := by
  funext m
  unfold misses
  rw [h]

end Explorer

end DesignSpace
