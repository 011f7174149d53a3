/-
  Subject:   DIRECTIVES EDITED WITHIN ONE NEST, and estimates from before. Those of the nest and of
             the regions around it are out of date, and no others are.

  * `Forest.counterpart`, `map_counterpart`: a forest that differs from another one in directives
    is that one with its regions changed;
  * `Design.EditedWithin`: designs that differ in the directives of one nest;
  * `Estimator.estimate?_edited`: **a region that is neither in the nest nor around it keeps its
    estimate**;
  * `Estimator.refreshRegion_edited`: so a refresh of the region of the nest is enough.
-/
import DesignSpace.Proofs.Design.Distinct
import DesignSpace.Proofs.Estimate.Depends

namespace DesignSpace

/-! ## 1. Forests that differ in directives -/

namespace Forest

variable {f f' : Forest} {n : Nest} {g : Region → Region} {q r : Region}

/-- What a region is in a forest that has other directives; the region itself if it is not there. -/
def counterpart (f : Forest) (r : Region) : Region :=
  (f.regions.find? fun q => q.bare = r.bare).getD r

theorem directing_counterpart (f : Forest) : Directing f.counterpart := by
  intro r
  unfold counterpart
  cases hq : f.regions.find? fun q => q.bare = r.bare with
  | none => rfl
  | some q => simpa using List.find?_some hq

theorem counterpart_eq (hf : f.ids.Nodup) (hq : q ∈ f.regions) (h : q.bare = r.bare) :
    f.counterpart r = q := by
  unfold counterpart
  cases hx : f.regions.find? fun q => q.bare = r.bare with
  | none => exact absurd (decide_eq_true h) (List.find?_eq_none.mp hx q hq)
  | some x =>
      have hbare : x.bare = r.bare := by simpa using List.find?_some hx
      have hid : x.bare.id = q.bare.id := congrArg Region.id (hbare.trans h.symm)
      exact List.inj_on_of_nodup_map hf (List.mem_of_find?_eq_some hx) hq hid

/-- A forest is the other one with its regions changed, where the change takes each region to the
    one that differs from it in directives. -/
theorem map_eq_of_bare (h : f'.bare = f.bare)
    (hg : ∀ r ∈ f.regions, ∀ q ∈ f'.regions, q.bare = r.bare → g r = q) : f.map g = f' := by
  induction f generalizing f' with
  | nil =>
      cases f' with
      | nil => rfl
      | cons r' below' after' => cases h
  | cons r below after ihb iha =>
      cases f' with
      | nil => cases h
      | cons r' below' after' =>
          have hcons : Forest.cons r'.bare below'.bare after'.bare =
              .cons r.bare below.bare after.bare := h
          injection hcons with hr hb ha
          simp only [regions_cons, List.mem_cons, List.mem_append] at hg
          rw [map, hg r (.inl rfl) r' (.inl rfl) hr,
            ihb hb fun r hr q hq => hg r (.inr (.inl hr)) q (.inr (.inl hq)),
            iha ha fun r hr q hq => hg r (.inr (.inr hr)) q (.inr (.inr hq))]

theorem map_counterpart (hf : f'.ids.Nodup) (h : f'.bare = f.bare) :
    f.map f'.counterpart = f' :=
  map_eq_of_bare h fun _ _ _ hq hbare => counterpart_eq hf hq hbare

end Forest

/-! ## 2. Designs -/

namespace Design

variable {d d' : Design} {n : Nest} {a id j r : RegionId}

/-- **Designs that differ within a nest**: their arrays are the same, their regions are but for
    directives, and the regions outside the nest of `r` are the same altogether. -/
structure EditedWithin (d d' : Design) (r : RegionId) : Prop where
  arrays : d'.arrays = d.arrays
  bare : d'.forest.bare = d.forest.bare
  outside : ∀ q ∈ d.forest.regions, q.id ∉ d.subtree r → q ∈ d'.forest.regions

theorem root_id_of_bare (h : d'.forest.bare = d.forest.bare) : d'.root.id = d.root.id := by
  have hids := preorder_of_bare h
  rw [preorder_eq, preorder_eq] at hids
  exact (List.cons.inj hids).1

theorem EditedWithin.counterpart_eq (h : d.EditedWithin d' r) (hd : d.preorder.Nodup)
    {q : Region} (hq : q ∈ d.forest.regions) (hid : q.id ∉ d.subtree r) :
    d'.forest.counterpart q = q := by
  have hd' : d'.preorder.Nodup := preorder_of_bare h.bare ▸ hd
  exact Forest.counterpart_eq hd' (h.outside q hq hid) rfl

/-- The nest of a region that is not in another nest, nor around it, has nothing of that nest. -/
theorem not_mem_subtree_of_mem_nest (hd : d.preorder.Nodup) (hid : id ∉ d.subtree r)
    (hanc : id ∉ d.ancestors r) (hn : d.find? id = some n) (hj : j ∈ n.ids) :
    j ∉ d.subtree r := by
  intro hsub
  rcases (mem_nest_ids_iff hd hn).mp hj with rfl | hj
  · exact hid hsub
  · exact (ancestors_of_mem_subtree hd hsub hj).elim hid hanc

/-- What is around a region that is not in a nest is not in it either. -/
theorem not_mem_subtree_of_mem_ancestors (hd : d.preorder.Nodup) (hid : id ∉ d.subtree r)
    (ha : a ∈ d.ancestors id) : a ∉ d.subtree r := by
  intro hsub
  refine hid ((mem_subtree_iff hd).mpr ⟨(mem_preorder_of_ancestor hd ha).2, .inr ?_⟩)
  rcases ((mem_subtree_iff hd).mp hsub).2 with rfl | h
  · exact ha
  · exact ancestors_trans hd h ha

end Design

/-! ## 3. Estimates -/

namespace Estimator

variable {e : Estimator} {d d' : Design} {id r : RegionId}

/-- **A region outside the nest and not around it** keeps its estimate. -/
theorem estimate?_edited (hd : d.preorder.Nodup) (h : d.EditedWithin d' r)
    (hid : id ∉ d.subtree r) (hanc : id ∉ d.ancestors r) :
    e.estimate? d' id = e.estimate? d id := by
  have hd' : d'.preorder.Nodup := Design.preorder_of_bare h.bare ▸ hd
  refine estimate?_map (Forest.directing_counterpart d'.forest)
    (Forest.map_counterpart hd' h.bare).symm h.arrays (Design.root_id_of_bare h.bare)
    (fun n hn q hq => ?_) fun n hn => ?_
  · obtain ⟨m, hm, rfl⟩ := List.mem_map.mp hq
    have hforest : m.region ∈ d.forest.regions :=
      List.mem_map_of_mem (Forest.nests_nest_subset (Forest.find?_mem hn).1 m hm)
    exact h.counterpart_eq hd hforest
      (Design.not_mem_subtree_of_mem_nest hd hid hanc hn (List.mem_map_of_mem hq))
  · have hforest : n.region ∈ d.forest.regions :=
      List.mem_map_of_mem (Design.mem_of_mem_above hn).1
    have habove : n.region.id ∈ d.ancestors id := List.mem_reverse.mpr (List.mem_map_of_mem hn)
    exact congrArg Region.gate
      (h.counterpart_eq hd hforest (Design.not_mem_subtree_of_mem_ancestors hd hid habove))

end Estimator

/-- Without the entries of the nest and of what is around it, a table from before is up to date. -/
theorem Annotated.UpToDate.edited {e : Estimator} {d d' : Design} {r : RegionId} {t : Table}
    (h : UpToDate e ⟨d, t⟩) (hedit : d.EditedWithin d' r) :
    UpToDate e ⟨d', t.invalidate (d'.subtree r ++ d'.ancestors r)⟩ := by
  have hd : d.preorder.Nodup := h.distinct
  rw [Design.subtree_of_bare hedit.bare, Design.ancestors_of_bare hedit.bare]
  refine h.invalidate hedit.bare (fun id hid => ?_) fun id hid j hj => ?_
  · rw [List.mem_append, not_or] at hid
    exact Estimator.estimate?_edited hd hedit hid.1 hid.2
  · rw [List.mem_append] at hid ⊢
    rcases hid with hid | hid
    · exact Design.ancestors_of_mem_subtree hd hid hj
    · exact .inr (Design.ancestors_trans hd hj hid)

/-! ## 4. Two estimates -/

/-- **A refresh of one region is enough.** Two designs that keep the rules differ within the nest of
    a region. Estimates of both succeed; and a refresh of the region, from the table of the first
    estimate, gives the metrics of the root and leaves the table that the second estimate gives and
    leaves. -/
theorem Estimator.refreshRegion_edited {d d' : Design} {r : RegionId} (hd : d.preorder.Nodup)
    (hc : d.check = .ok ()) (hc' : d'.check = .ok ()) (h : d.EditedWithin d' r) (e : Estimator)
    (t t' : Table) :
    ∃ summary a summary' a', e.run ⟨d, t⟩ = .ok (summary, a) ∧
      e.run ⟨d', t'⟩ = .ok (summary', a') ∧
      e.refreshRegion ⟨d', a.table⟩ r = (summary'.metrics, a') := by
  have hd' : d'.preorder.Nodup := Design.preorder_of_bare h.bare ▸ hd
  obtain ⟨summary, ⟨_, u⟩, hrun, -, hcomplete, rfl⟩ := exists_run e hd hc t
  obtain ⟨_, a', hrun', rfl, hcomplete', hdesign'⟩ := exists_run e hd' hc' t'
  refine ⟨summary, _, _, a', hrun, hrun', ?_⟩
  have hup := hcomplete.upToDate.edited h
  refine Prod.ext ?_ ?_
  · rw [metrics_summary hcomplete', hdesign']
    exact hup.fst_refresh
  · exact hup.complete_refresh.eq hcomplete' ((e.design_refresh _).trans hdesign'.symm)

namespace Smoothing

/-- The loop over the external array with other directives: pipelined, and in tiles of four. -/
def redouble : Loop := { double with directives := ⟨true, 4, some 4⟩ }

/-- The design with the directives of that loop edited. -/
def edited : Design :=
  { design with
    below :=
      .cons ⟨1, .loop redouble, none⟩ (.cons ⟨2, .block doubleBody, none⟩ .nil .nil)
        (.cons ⟨3, .loop total, none⟩ (.cons ⟨4, .block totalBody, none⟩ .nil .nil) .nil) }

end Smoothing

/-- All directives of one loop edited at once. -/
theorem Estimator.refreshRegion_edited_smoothing :
    Smoothing.design.EditedWithin Smoothing.edited 1 ∧ ∃ summary a summary' a',
      (Estimator.new none {}).run ⟨Smoothing.design, .empty⟩ = .ok (summary, a) ∧
      (Estimator.new none {}).run ⟨Smoothing.edited, .empty⟩ = .ok (summary', a') ∧
      (Estimator.new none {}).refreshRegion ⟨Smoothing.edited, a.table⟩ 1 =
        (summary'.metrics, a') := by
  have hedit : Smoothing.design.EditedWithin Smoothing.edited 1 := by
    refine ⟨rfl, ?_, ?_⟩ <;> decide +kernel
  exact ⟨hedit, refreshRegion_edited (by decide +kernel) (by decide +kernel) (by decide +kernel)
    hedit _ .empty .empty⟩

end DesignSpace
