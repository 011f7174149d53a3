/-
  Subject:   ESTIMATES MADE ANEW, and what a table adds to them. Filling up a table whose entries
             are right gives the same as making all estimates anew.

  * `Estimator.fresh`, `estimate`, `estimate?`: metrics and estimates that no table has a part in;
  * `Estimator.Current`: the entries of a table for a forest are right, and nothing below a region
    with an entry is missing;
  * `Estimator.settle_spec`: what settling a forest gives, and the table that it leaves;
  * `Annotated.UpToDate`, `Annotated.Complete`: the same for designs with their tables;
  * `Annotated.UpToDate.complete_refresh`, `refresh_eq`: **a refresh fills up the table with the
    estimates that are made anew**;
  * `Estimator.complete_run`, `exists_run`: a run leaves a complete table.
-/
import DesignSpace.Proofs.Attempt
import DesignSpace.Proofs.Keyed
import DesignSpace.Proofs.Forest.Path
import DesignSpace.Estimate

namespace DesignSpace

namespace Estimator

/-! ## 1. Without a table -/

/-- The metrics of the regions at the top of a forest, made anew. -/
def fresh (e : Estimator) (d : Design) : Context → Forest → List Metrics
  | _, .nil => []
  | c, .cons r below after =>
    e.combine d c ⟨r, below⟩ (fresh e d (c.enter d.arrays ⟨r, below⟩) below) :: fresh e d c after

/-- The estimate of a nest in a context, made anew. -/
def estimate (e : Estimator) (d : Design) (c : Context) (n : Nest) : Estimate :=
  let m := e.combine d c n (e.fresh d (c.enter d.arrays n) n.below)
  ⟨m, e.violations m⟩

/-- The estimate of a region of a forest that stands in a context. -/
def estimateIn? (e : Estimator) (d : Design) (id : RegionId) : Context → Forest → Option Estimate
  | _, .nil => none
  | c, .cons r below after =>
    if r.id = id then some (e.estimate d c ⟨r, below⟩)
    else (estimateIn? e d id (c.enter d.arrays ⟨r, below⟩) below).or (estimateIn? e d id c after)

/-- The estimate of a region of a design, made anew. -/
def estimate? (e : Estimator) (d : Design) (id : RegionId) : Option Estimate :=
  (d.find? id).map fun n => e.estimate d (d.context id) n

/-- The metrics of the root, made anew. -/
def rootMetrics (e : Estimator) (d : Design) : Metrics := (e.estimate d {} d.top).metrics

variable {e : Estimator} {d : Design} {c : Context} {f : Forest} {t : Table} {id : RegionId}

theorem estimateIn?_eq (e : Estimator) (d : Design) (c : Context) (f : Forest) (id : RegionId) :
    e.estimateIn? d id c f = (f.above id).bind fun path =>
      (f.find? id).map fun n => e.estimate d (path.foldl (fun c n => c.enter d.arrays n) c) n := by
  induction f generalizing c with
  | nil => rfl
  | cons r below after ihb iha =>
      rw [estimateIn?, Forest.above_cons, Forest.find?_cons, ihb, iha]
      by_cases hr : r.id = id
      · rw [if_pos hr, if_pos hr, if_pos hr]
        rfl
      · rw [if_neg hr, if_neg hr, if_neg hr]
        -- the region is below, or it is not and both look-ups go on
        by_cases hb : id ∈ below.ids
        · obtain ⟨path, hp⟩ := Forest.exists_above_of_mem_ids hb
          obtain ⟨n, hn⟩ := Forest.exists_find?_of_mem_ids hb
          rw [hp, hn]
          rfl
        · rw [Forest.above_eq_none_iff.mpr hb, Forest.find?_eq_none_iff.mpr hb]
          rfl

theorem estimateIn?_forest (e : Estimator) (d : Design) (id : RegionId) :
    e.estimateIn? d id {} d.forest = e.estimate? d id := by
  rw [estimateIn?_eq, estimate?, Design.context, Design.above, Design.find?]
  by_cases h : id ∈ d.forest.ids
  · obtain ⟨path, hp⟩ := Forest.exists_above_of_mem_ids h
    rw [hp]
    rfl
  · rw [Forest.above_eq_none_iff.mpr h, Forest.find?_eq_none_iff.mpr h]
    rfl

theorem estimateIn?_eq_none_iff : e.estimateIn? d id c f = none ↔ id ∉ f.ids := by
  induction f generalizing c with
  | nil => simp [estimateIn?, Forest.ids_nil]
  | cons r below after ihb iha =>
      rw [estimateIn?, Forest.ids_cons]
      by_cases h : r.id = id
      · simp [h]
      · simp [h, Ne.symm h, ihb, iha]

theorem mem_ids_of_estimateIn? {x : Estimate} (h : e.estimateIn? d id c f = some x) :
    id ∈ f.ids := by
  refine Classical.byContradiction fun hid => ?_
  rw [estimateIn?_eq_none_iff.mpr hid] at h
  cases h

/-- A region below the first one has its estimate from there. -/
theorem estimateIn?_of_below {r : Region} {below after : Forest} (ap : Forest.Apart r below after)
    (hid : id ∈ below.ids) : e.estimateIn? d id c (.cons r below after) =
      e.estimateIn? d id (c.enter d.arrays ⟨r, below⟩) below := by
  rw [estimateIn?, if_neg fun hr : r.id = id => ap.notBelow (hr ▸ hid),
    estimateIn?_eq_none_iff.mpr (ap.disjoint id hid), Option.or_none]

/-- A region of a later nest has its estimate from there. -/
theorem estimateIn?_of_after {r : Region} {below after : Forest} (ap : Forest.Apart r below after)
    (hid : id ∈ after.ids) :
    e.estimateIn? d id c (.cons r below after) = e.estimateIn? d id c after := by
  rw [estimateIn?, if_neg fun hr : r.id = id => ap.notAfter (hr ▸ hid),
    estimateIn?_eq_none_iff.mpr fun hb => ap.disjoint id hb hid, Option.none_or]

theorem estimate?_isSome_iff : (e.estimate? d id).isSome ↔ id ∈ d.preorder := by
  rw [← estimateIn?_forest, Option.isSome_iff_ne_none, ne_eq, estimateIn?_eq_none_iff, not_not]
  rfl

/-! ## 2. Filling up a table -/

/-- **The entries of a table for a forest are current**: those that are there are right, and with a
    region all below it have entries. -/
structure Current (e : Estimator) (d : Design) (c : Context) (f : Forest) (t : Table) : Prop where
  right : ∀ j ∈ f.ids, ∀ m, t.get? j = some m → e.estimateIn? d j c f = some m
  closed : ∀ n ∈ f.nests, ∀ m, t.get? n.region.id = some m → ∀ j ∈ n.below.ids, t.get? j ≠ none

namespace Current

variable {r : Region} {below after : Forest}

theorem ofBelow (ap : Forest.Apart r below after) (h : Current e d c (.cons r below after) t) :
    Current e d (c.enter d.arrays ⟨r, below⟩) below t where
  right j hj m hm := by
    rw [← estimateIn?_of_below ap hj]
    exact h.right j (by rw [Forest.ids_cons]; simp [hj]) m hm
  closed n hn := h.closed n (by rw [Forest.nests]; simp [hn])

theorem ofAfter (ap : Forest.Apart r below after) (h : Current e d c (.cons r below after) t) :
    Current e d c after t where
  right j hj m hm := by
    rw [← estimateIn?_of_after ap hj]
    exact h.right j (by rw [Forest.ids_cons]; simp [hj]) m hm
  closed n hn := h.closed n (by rw [Forest.nests]; simp [hn])

theorem eq_of_entry (h : Current e d c (.cons r below after) t) {s : Estimate}
    (hr : t.get? r.id = some s) : e.estimate d c ⟨r, below⟩ = s := by
  have hright := h.right r.id (by rw [Forest.ids_cons]; exact List.mem_cons_self) s hr
  rw [estimateIn?, if_pos rfl] at hright
  exact Option.some.inj hright

/-- Where a region has an entry, the table knows all of its nest already. -/
theorem or_eq_of_entry (ap : Forest.Apart r below after)
    (h : Current e d c (.cons r below after) t) {s : Estimate} (hr : t.get? r.id = some s)
    (j : RegionId) : (e.estimateIn? d j c after).or (t.get? j) =
      (e.estimateIn? d j c (.cons r below after)).or (t.get? j) := by
  rw [estimateIn?]
  by_cases hj : r.id = j
  · subst hj
    rw [if_pos rfl, estimateIn?_eq_none_iff.mpr ap.notAfter, hr, h.eq_of_entry hr]
    rfl
  rw [if_neg hj]
  by_cases hjb : j ∈ below.ids
  · have hne := h.closed ⟨r, below⟩ List.mem_cons_self s hr j hjb
    obtain ⟨s', hs'⟩ := Option.ne_none_iff_exists'.mp hne
    rw [estimateIn?_eq_none_iff.mpr (ap.disjoint j hjb), hs', (h.ofBelow ap).right j hjb s' hs']
    rfl
  · rw [estimateIn?_eq_none_iff.mpr hjb, Option.none_or]

/-- Only the entries of the forest count. -/
theorem congr {u : Table} (h : Current e d c f t) (htu : ∀ j ∈ f.ids, u.get? j = t.get? j) :
    Current e d c f u where
  right j hj m hm := h.right j hj m (htu j hj ▸ hm)
  closed n hn m hm j hj := by
    rw [htu j (Forest.mem_ids_of_mem_below hn hj)]
    exact h.closed n hn m (htu _ (Forest.mem_ids_of_mem_nests hn) ▸ hm) j hj

end Current

theorem settle_cons_of_some {r : Region} {below after : Forest} {m : Metrics}
    (h : t.metrics? r.id = some m) :
    e.settle d c (.cons r below after) t =
      (m :: (e.settle d c after t).1, (e.settle d c after t).2) := by
  simp only [settle, h]

theorem settle_cons_of_none {r : Region} {below after : Forest} (h : t.metrics? r.id = none)
    (hb : (e.settle d (c.enter d.arrays ⟨r, below⟩) below t).1 =
      e.fresh d (c.enter d.arrays ⟨r, below⟩) below) {u : Table}
    (hu : u = (e.settle d (c.enter d.arrays ⟨r, below⟩) below t).2.insert r.id
      (e.estimate d c ⟨r, below⟩)) :
    e.settle d c (.cons r below after) t =
      ((e.estimate d c ⟨r, below⟩).metrics :: (e.settle d c after u).1,
        (e.settle d c after u).2) := by
  subst hu
  simp only [settle, h, hb]
  rfl

theorem ascending_settle (h : t.Ascending) : (e.settle d c f t).2.Ascending := by
  induction f generalizing c t with
  | nil => exact h
  | cons r below after ihb iha =>
      cases hm : t.metrics? r.id with
      | some m =>
          rw [settle_cons_of_some hm]
          exact iha h
      | none =>
          simp only [settle, hm]
          exact iha (Table.ascending_insert (ihb h) _ _)

/-- **Settling a forest** whose entries are current gives the metrics that are made anew, and the
    table with the estimates of the forest that are made anew. -/
theorem settle_spec (hf : f.ids.Nodup) (h : Current e d c f t) :
    (e.settle d c f t).1 = e.fresh d c f ∧
      ∀ j, (e.settle d c f t).2.get? j = (e.estimateIn? d j c f).or (t.get? j) := by
  induction f generalizing c t with
  | nil => exact ⟨rfl, fun j => rfl⟩
  | cons r below after ihb iha =>
      have ap := Forest.apart_of_nodup hf
      cases hr : t.get? r.id with
      | some s =>
          have hm : t.metrics? r.id = some s.metrics := by rw [Table.metrics?, hr]; rfl
          obtain ⟨hfst, hget⟩ := iha ap.nodupAfter (h.ofAfter ap)
          rw [settle_cons_of_some hm, fresh, hfst]
          refine ⟨?_, fun j => (hget j).trans (h.or_eq_of_entry ap hr j)⟩
          rw [← h.eq_of_entry hr]
          rfl
      | none =>
          have hm : t.metrics? r.id = none := by rw [Table.metrics?, hr]; rfl
          obtain ⟨hbfst, hbget⟩ := ihb ap.nodupBelow (h.ofBelow ap)
          -- what is put in below and at the region itself does not touch the regions after it
          have hrest : Current e d c after
              ((e.settle d (c.enter d.arrays ⟨r, below⟩) below t).2.insert r.id
                (e.estimate d c ⟨r, below⟩)) := by
            refine (h.ofAfter ap).congr fun j hj => ?_
            rw [Table.get?_insert, if_neg fun hr : r.id = j => ap.notAfter (hr ▸ hj), hbget,
              estimateIn?_eq_none_iff.mpr fun hb => ap.disjoint j hb hj, Option.none_or]
          obtain ⟨hfst, hget⟩ := iha ap.nodupAfter hrest
          rw [settle_cons_of_none hm hbfst rfl, hfst]
          refine ⟨rfl, fun j => ?_⟩
          rw [hget, Table.get?_insert, hbget, estimateIn?]
          by_cases hj : r.id = j
          · subst hj
            rw [if_pos rfl, if_pos rfl, estimateIn?_eq_none_iff.mpr ap.notAfter]
            rfl
          · rw [if_neg hj, if_neg hj]
            by_cases hjb : j ∈ below.ids
            · rw [estimateIn?_eq_none_iff.mpr (ap.disjoint j hjb), Option.none_or, Option.or_none]
            · rw [estimateIn?_eq_none_iff.mpr hjb, Option.none_or, Option.none_or]

/-! ## 3. A refresh -/

theorem context_root (d : Design) : d.context d.root.id = {} := by
  rw [Design.context, Design.above, Design.forest, Nest.toForest, Forest.above_cons]
  show List.foldl _ _ ((if d.root.id = d.root.id then some [] else _).getD []) = _
  rw [if_pos rfl]
  rfl

theorem estimate?_root (e : Estimator) (d : Design) :
    e.estimate? d d.root.id = some ⟨e.rootMetrics d, e.violations (e.rootMetrics d)⟩ := by
  rw [estimate?, Design.find?_root, context_root]
  rfl

theorem refresh_eq_settle (e : Estimator) (a : Annotated) :
    e.refresh a =
      ((e.settle a.design {} a.design.forest a.table).1.headD .empty,
        { a with table := (e.settle a.design {} a.design.forest a.table).2 }) := by
  unfold refresh aggregate
  rw [Design.find?_root, context_root]
  cases h : a.table.metrics? a.design.root.id with
  | none => rfl
  | some m =>
      have hs : e.settle a.design {} a.design.forest a.table = ([m], a.table) :=
        settle_cons_of_some h
      rw [hs]
      rfl

end Estimator

/-! ## 4. Annotated designs -/

namespace Annotated

variable {e : Estimator} {a b : Annotated}

/-- **A table that is up to date**: no number stands for two regions, the entries that are there
    are those made anew, and a region without an entry has none above it. -/
structure UpToDate (e : Estimator) (a : Annotated) : Prop where
  distinct : a.design.preorder.Nodup
  ascending : a.table.Ascending
  right : ∀ id m, a.table.get? id = some m → e.estimate? a.design id = some m
  closed : ∀ id, a.table.get? id = none → ∀ j ∈ a.design.ancestors id, a.table.get? j = none

/-- A table that says of every region what is made anew. -/
structure Complete (e : Estimator) (a : Annotated) : Prop where
  distinct : a.design.preorder.Nodup
  ascending : a.table.Ascending
  full : ∀ id, a.table.get? id = e.estimate? a.design id

theorem Complete.upToDate (h : Complete e a) : UpToDate e a where
  distinct := h.distinct
  ascending := h.ascending
  right id m hm := (h.full id).symm.trans hm
  closed id hid j hj := by
    have hmem := (Design.mem_preorder_of_ancestor h.distinct hj).2
    have hsome : (e.estimate? a.design id).isSome := Estimator.estimate?_isSome_iff.mpr hmem
    rw [← h.full id, hid] at hsome
    cases hsome

/-- A complete table is determined by its design. -/
theorem Complete.eq (ha : Complete e a) (hb : Complete e b) (h : a.design = b.design) : a = b := by
  obtain ⟨d, t⟩ := a
  obtain ⟨d', u⟩ := b
  obtain rfl : d = d' := h
  have htu := Table.eq_of_get?_eq ha.ascending hb.ascending fun id =>
    (ha.full id).trans (hb.full id).symm
  exact congrArg (Annotated.mk d) htu

theorem upToDate_empty (e : Estimator) {d : Design} (hd : d.preorder.Nodup) :
    UpToDate e ⟨d, .empty⟩ where
  distinct := hd
  ascending := Table.ascending_empty
  right _ _ hm := by cases hm
  closed _ _ _ _ := rfl

namespace UpToDate

theorem current (h : UpToDate e a) : e.Current a.design {} a.design.forest a.table where
  right j _ m hm := (Estimator.estimateIn?_forest e a.design j).trans (h.right j m hm)
  closed n hn m hm j hj := by
    intro hnone
    have hanc := (Design.mem_ancestors_iff h.distinct).mpr ⟨n, hn, rfl, hj⟩
    rw [h.closed j hnone _ hanc] at hm
    cases hm

/-- **A refresh completes the table.** -/
theorem complete_refresh (h : UpToDate e a) : Complete e (e.refresh a).2 := by
  rw [Estimator.refresh_eq_settle]
  refine ⟨h.distinct, Estimator.ascending_settle h.ascending, fun id => ?_⟩
  obtain ⟨-, hget⟩ := Estimator.settle_spec h.distinct h.current
  show (e.settle a.design {} a.design.forest a.table).2.get? id = e.estimate? a.design id
  rw [hget, Estimator.estimateIn?_forest]
  cases hid : a.table.get? id with
  | none => exact Option.or_none
  | some m => rw [h.right id m hid, Option.some_or]

/-- A refresh gives the metrics of the root that are made anew. -/
theorem fst_refresh (h : UpToDate e a) : (e.refresh a).1 = e.rootMetrics a.design := by
  rw [Estimator.refresh_eq_settle, (Estimator.settle_spec h.distinct h.current).1]
  rfl

/-- **Nothing is lost by keeping what is there**: a refresh gives what it gives without entries. -/
theorem refresh_eq (h : UpToDate e a) : e.refresh a = e.refresh { a with table := .empty } := by
  have h' := upToDate_empty e h.distinct
  refine Prod.ext (h.fst_refresh.trans h'.fst_refresh.symm) ?_
  refine h.complete_refresh.eq h'.complete_refresh ?_
  rw [Estimator.refresh_eq_settle, Estimator.refresh_eq_settle]

end UpToDate

/-- A complete table stays as it is. -/
theorem Complete.refresh_eq_self (h : Complete e a) :
    e.refresh a = (e.rootMetrics a.design, a) := by
  refine Prod.ext h.upToDate.fst_refresh ?_
  refine h.upToDate.complete_refresh.eq h ?_
  rw [Estimator.refresh_eq_settle]

end Annotated

/-! ## 5. Whole designs -/

namespace Estimator

variable {e : Estimator} {a b : Annotated} {summary : Summary}

/-- A run succeeds where the rules are kept, and starts from an empty table. -/
theorem run_eq_ok_iff :
    e.run a = .ok (summary, b) ↔ a.design.check = .ok () ∧
      b = (e.refresh { a with table := .empty }).2 ∧ summary = b.summary := by
  rw [run, Attempt.bind_eq_ok_iff]
  constructor
  · rintro ⟨⟨⟩, hc, h⟩
    obtain ⟨rfl, rfl⟩ := Prod.mk.inj (Except.ok.inj h)
    exact ⟨hc, rfl, rfl⟩
  · rintro ⟨hc, rfl, rfl⟩
    exact ⟨(), hc, rfl⟩

theorem design_refresh (e : Estimator) (a : Annotated) : (e.refresh a).2.design = a.design := by
  rw [refresh_eq_settle]

/-- Of a complete table the summary tells what is made anew. -/
theorem metrics_summary (h : a.Complete e) : a.summary.metrics = e.rootMetrics a.design := by
  have hroot := h.full a.design.root.id
  rw [estimate?_root] at hroot
  show (a.table.metrics? a.design.root.id).getD .empty = _
  rw [Table.metrics?, hroot]
  rfl

/-- A run leaves a complete table. -/
theorem complete_run (hd : a.design.preorder.Nodup) (h : e.run a = .ok (summary, b)) :
    b.Complete e ∧ b.design = a.design := by
  obtain ⟨-, rfl, -⟩ := run_eq_ok_iff.mp h
  exact ⟨(Annotated.upToDate_empty e hd).complete_refresh, design_refresh e _⟩

/-- A design that keeps the rules is estimated. -/
theorem exists_run (e : Estimator) {d : Design} (hd : d.preorder.Nodup) (hc : d.check = .ok ())
    (t : Table) : ∃ summary a, e.run ⟨d, t⟩ = .ok (summary, a) ∧
      summary = a.summary ∧ a.Complete e ∧ a.design = d := by
  have hrun : e.run ⟨d, t⟩ = .ok (_, _) := run_eq_ok_iff.mpr ⟨hc, rfl, rfl⟩
  obtain ⟨hcomplete, hdesign⟩ := complete_run (a := ⟨d, t⟩) hd hrun
  exact ⟨_, _, hrun, rfl, hcomplete, hdesign⟩

end Estimator

end DesignSpace
