/-
  Subject:   A REGION ESTIMATED BY ITSELF. Its nest, in the context that the nests around it
             impose, is estimated as it is in the whole design.

  * `Estimator.estimateIn?_nest`: **a nest by itself**, in a forest that stands in a context;
  * `Estimator.aggregate_empty`: the metrics of one region, and the table that is left;
  * `Estimator.aggregate_run`: the same against an estimate of the whole design.
-/
import DesignSpace.Proofs.Design.Distinct
import DesignSpace.Proofs.Estimate.Fresh

namespace DesignSpace

namespace Estimator

variable {e : Estimator} {d : Design} {c : Context} {f : Forest} {n : Nest} {id j : RegionId}

/-! ## 1. Nests of a forest -/

/-- **A nest by itself**: its regions have, in the context below the nests around it, the estimates
    that they have in the forest. -/
theorem estimateIn?_nest {path : List Nest} (hf : f.ids.Nodup) (hp : f.above id = some path)
    (hn : f.find? id = some n) (hj : j ∈ n.ids) :
    e.estimateIn? d j (path.foldl (fun c n => c.enter d.arrays n) c) n.toForest =
      e.estimateIn? d j c f := by
  induction f generalizing c path with
  | nil => cases hp
  | cons r below after ihb iha =>
      have ap := Forest.apart_of_nodup hf
      rw [Forest.find?_cons] at hn
      by_cases hr : r.id = id
      · -- nothing is around the first region, and what comes after it is not looked at
        rw [Forest.above_cons, if_pos hr] at hp
        rw [if_pos hr] at hn
        obtain rfl := Option.some.inj hp
        obtain rfl := Option.some.inj hn
        have hafter : j ∉ after.ids := by
          rw [Nest.ids_eq, List.mem_cons] at hj
          rcases hj with rfl | hj
          · exact ap.notAfter
          · exact ap.disjoint j hj
        show e.estimateIn? d j c (.cons r below .nil) = _
        unfold estimateIn?
        rw [estimateIn?_eq_none_iff.mpr hafter]
        rfl
      rw [if_neg hr] at hn
      by_cases hb : id ∈ below.ids
      · obtain ⟨p, hpath⟩ := Forest.exists_above_of_mem_ids hb
        obtain ⟨m, hm⟩ := Forest.exists_find?_of_mem_ids hb
        rw [Forest.above_of_below ap hpath] at hp
        obtain rfl := Option.some.inj hp
        rw [hm, Option.some_or] at hn
        obtain rfl := Option.some.inj hn
        have hjb := Forest.mem_ids_of_mem_nest (Forest.find?_mem hm).1 hj
        rw [estimateIn?_of_below ap hjb, List.foldl_cons]
        exact ihb ap.nodupBelow hpath hm
      · rw [Forest.find?_eq_none_iff.mpr hb, Option.none_or] at hn
        obtain ⟨p, hpath⟩ := Forest.exists_above_of_mem_ids
          ((Forest.find?_mem hn).2 ▸ Forest.mem_ids_of_mem_nests (Forest.find?_mem hn).1)
        rw [Forest.above_of_after ap hpath] at hp
        have hja := Forest.mem_ids_of_mem_nest (Forest.find?_mem hn).1 hj
        rw [estimateIn?_of_after ap hja]
        exact iha ap.nodupAfter (hpath.trans hp) hn

/-! ## 2. Regions of a design -/

theorem estimateIn?_context (hd : d.preorder.Nodup) (hn : d.find? id = some n) (hj : j ∈ n.ids) :
    e.estimateIn? d j (d.context id) n.toForest = e.estimate? d j := by
  obtain ⟨hmem, hid⟩ := Forest.find?_mem hn
  obtain ⟨path, hp⟩ := Forest.exists_above_of_mem_ids (hid ▸ Forest.mem_ids_of_mem_nests hmem)
  rw [Design.context, Design.above, hp, ← estimateIn?_forest]
  exact estimateIn?_nest hd hp hn hj

/-- An estimate of one region, with nothing known yet, gives its metrics, and leaves the estimates
    of the regions of its nest. -/
theorem aggregate_empty (hd : d.preorder.Nodup) (hn : d.find? id = some n) :
    (e.aggregate d id .empty).1 = (e.estimate d (d.context id) n).metrics ∧
      ∀ j, (e.aggregate d id .empty).2.get? j =
        if j ∈ n.ids then e.estimate? d j else none := by
  have hcurrent : e.Current d (d.context id) n.toForest .empty :=
    ⟨fun _ _ _ h => (nomatch h), fun _ _ _ h => (nomatch h)⟩
  obtain ⟨hfst, hget⟩ := settle_spec (Forest.nodup_nest hd (Forest.find?_mem hn).1) hcurrent
  have hsettle : e.aggregate d id .empty =
      ((e.settle d (d.context id) n.toForest .empty).1.headD .empty,
        (e.settle d (d.context id) n.toForest .empty).2) := by
    unfold aggregate
    rw [hn]
    rfl
  rw [hsettle]
  refine ⟨?_, fun j => (hget j).trans ?_⟩
  · rw [hfst]
    rfl
  · by_cases hj : j ∈ n.ids
    · rw [if_pos hj, estimateIn?_context hd hn hj]
      exact Option.or_none
    · rw [if_neg hj, estimateIn?_eq_none_iff.mpr hj]
      rfl

/-! ## 3. Designs that are accepted -/

/-- **A region estimated by itself.** An estimate of a design that is accepted succeeds. For each
    region of the design, an estimate of that region alone gives the metrics that the region has in
    it. It leaves entries for the regions of its nest and for no others, and they are the entries
    that the estimate of the whole design leaves. -/
theorem aggregate_run {l : Listing} (hd : l.design = .ok d) (e : Estimator) (t : Table) :
    ∃ summary a, e.run ⟨d, t⟩ = .ok (summary, a) ∧ ∀ id ∈ d.preorder,
      a.table.metrics? id = some (e.aggregate d id .empty).1 ∧
      (∀ j, (e.aggregate d id .empty).2.get? j ≠ none ↔ j ∈ d.subtree id) ∧
      ∀ j ∈ d.subtree id, (e.aggregate d id .empty).2.get? j = a.table.get? j := by
  have hdistinct := Listing.nodup_of_design hd
  obtain ⟨summary, a, hrun, -, hcomplete, hdesign⟩ :=
    exists_run e hdistinct (Listing.tree_of_design hd).2 t
  refine ⟨summary, a, hrun, fun id hid => ?_⟩
  obtain ⟨n, hn⟩ := Forest.exists_find?_of_mem_ids hid
  obtain ⟨hfst, hget⟩ := aggregate_empty (e := e) hdistinct hn
  have hsubtree : d.subtree id = n.ids := by
    rw [Design.subtree, Design.find?, hn]
  rw [hsubtree]
  refine ⟨?_, fun j => ?_, fun j hj => ?_⟩
  · rw [Table.metrics?, hcomplete.full id, hdesign, hfst, estimate?, Design.find?, hn]
    rfl
  · rw [hget]
    by_cases hj : j ∈ n.ids
    · have hmem : j ∈ d.preorder := Forest.mem_ids_of_mem_nest (Forest.find?_mem hn).1 hj
      rw [if_pos hj, ← Option.isSome_iff_ne_none, estimate?_isSome_iff]
      exact iff_of_true hmem hj
    · rw [if_neg hj]
      exact iff_of_false (fun h => h rfl) hj
  · rw [hget, if_pos hj, hcomplete.full j, hdesign]

/-- The block in the loop in tiles, with what the loop imposes on it. -/
theorem aggregate_run_smoothing : Smoothing.listing.design = .ok Smoothing.design ∧
    ∃ summary a, (Estimator.new none {}).run ⟨Smoothing.design, .empty⟩ = .ok (summary, a) ∧
      a.table.metrics? 2 =
        some ((Estimator.new none {}).aggregate Smoothing.design 2 .empty).1 ∧
      ∀ j, ((Estimator.new none {}).aggregate Smoothing.design 2 .empty).2.get? j ≠ none ↔
        j = 2 := by
  obtain ⟨summary, a, hrun, halone⟩ :=
    aggregate_run Smoothing.design_listing (Estimator.new none {}) .empty
  obtain ⟨hmetrics, hentries, -⟩ := halone 2 (by decide +kernel)
  have hsubtree : Smoothing.design.subtree 2 = [2] := by decide +kernel
  refine ⟨Smoothing.design_listing, summary, a, hrun, hmetrics, fun j => ?_⟩
  rw [hentries, hsubtree, List.mem_singleton]

end Estimator

end DesignSpace
