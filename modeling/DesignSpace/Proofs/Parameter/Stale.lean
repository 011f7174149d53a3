/-
  Subject:   THE REGIONS THAT A PARAMETER MAKES STALE, and that no others have to be estimated anew.

  * `Design.mem_stale_write`: a write does not move the set of stale regions;
  * `Design.stale_closed`: with a region all around it are stale;
  * `Estimator.estimate?_write`: **a region that is not stale keeps its estimate**;
  * `Annotated.UpToDate.write`: stale entries dropped, the table is up to date after a write;
  * `Annotated.set_cases`: what a change can do, and so `UpToDate.set`, `UpToDate.undo`.
-/
import DesignSpace.Proofs.Parameter.Write

namespace DesignSpace

namespace Design

variable {d d' : Design} {p : Parameter} {s : Setting} {id j r : RegionId}

/-! ## 1. The set -/

theorem mem_stale_iff : id ∈ d.stale p ↔ id ∈ d.dependents p := by
  rw [stale, Keyed.mem_keys_ofList, List.map_map]
  exact ⟨fun h => by simpa using h, fun h => by simpa using h⟩

theorem mem_dependents_partition {name : String} :
    id ∈ d.dependents (.partition name) ↔
      (∃ a, d.array? name = some a ∧ id ∈ d.withAncestors (d.scopeOf a)) ∨
        ∃ r ∈ d.accessors name, id ∈ d.withAncestors r := by
  unfold dependents
  rw [List.mem_append, List.mem_flatMap]
  cases d.array? name with
  | none => simp
  | some a => simp

theorem mem_accessors_iff {name : String} :
    r ∈ d.accessors name ↔
      ∃ n ∈ d.forest.nests, n.region.id = r ∧ ∃ a ∈ n.region.accesses, a.array = name := by
  rw [accessors, List.mem_map]
  constructor
  · rintro ⟨q, hq, rfl⟩
    obtain ⟨hmem, hany⟩ := List.mem_filter.mp hq
    obtain ⟨n, hn, rfl⟩ := List.mem_map.mp hmem
    obtain ⟨a, ha, hname⟩ := List.any_eq_true.mp hany
    exact ⟨n, hn, rfl, a, ha, of_decide_eq_true hname⟩
  · rintro ⟨n, hn, rfl, a, ha, hname⟩
    refine ⟨n.region, List.mem_filter.mpr ⟨List.mem_map_of_mem hn, ?_⟩, rfl⟩
    exact List.any_eq_true.mpr ⟨a, ha, decide_eq_true hname⟩

/-- **A write does not move the set of stale regions.** -/
theorem mem_stale_write (h : d.write p s = .ok d') : id ∈ d'.stale p ↔ id ∈ d.stale p := by
  have hbare := forest_of_bare (bare_write h)
  have hanc : d'.withAncestors = d.withAncestors := by
    funext id
    rw [withAncestors, withAncestors, ancestors_of_bare hbare]
  have hsub : d'.subtree = d.subtree := funext fun id => subtree_of_bare hbare id
  rw [mem_stale_iff, mem_stale_iff]
  cases p with
  | pipeline r => exact iff_of_eq (congrArg (id ∈ ·) (congrFun hanc r))
  | dataflow r => exact iff_of_eq (congrArg (id ∈ ·) (congrFun hanc r))
  | unroll r =>
      exact iff_of_eq
        (congrArg (id ∈ ·) (congrArg₂ List.append (congrFun hsub r) (congrFun hanc r)))
  | tile r =>
      exact iff_of_eq
        (congrArg (id ∈ ·) (congrArg₂ List.append (congrFun hsub r) (congrFun hanc r)))
  | partition name =>
      obtain ⟨k, a, -, ha, rfl⟩ := write_partition_eq_ok_iff.mp h
      have hget := @array?_updateArray name d _ (banking_partition k) name
      rw [if_pos rfl, ha] at hget
      rw [mem_dependents_partition, mem_dependents_partition, hget, ha]
      refine or_congr ?_ Iff.rfl
      constructor
      · rintro ⟨_, ⟨⟩, hmem⟩
        exact ⟨a, rfl, hmem⟩
      · rintro ⟨_, ⟨⟩, hmem⟩
        exact ⟨_, rfl, hmem⟩

theorem withAncestors_closed (hd : d.preorder.Nodup) (hid : id ∈ d.withAncestors r)
    (hj : j ∈ d.ancestors id) : j ∈ d.withAncestors r := by
  rcases List.mem_cons.mp hid with rfl | hid
  · exact List.mem_cons_of_mem _ hj
  · exact List.mem_cons_of_mem _ (ancestors_trans hd hj hid)

/-- **With a region all around it are stale.** -/
theorem stale_closed (hd : d.preorder.Nodup) (hid : id ∈ d.stale p) (hj : j ∈ d.ancestors id) :
    j ∈ d.stale p := by
  rw [mem_stale_iff] at hid ⊢
  have hnest : ∀ r, id ∈ d.subtree r ++ d.withAncestors r →
      j ∈ d.subtree r ++ d.withAncestors r := by
    intro r h
    rw [List.mem_append] at h ⊢
    rcases h with h | h
    · exact (ancestors_of_mem_subtree hd h hj).imp_right (List.mem_cons_of_mem _)
    · exact .inr (withAncestors_closed hd h hj)
  cases p with
  | pipeline r => exact withAncestors_closed hd hid hj
  | dataflow r => exact withAncestors_closed hd hid hj
  | unroll r => exact hnest r hid
  | tile r => exact hnest r hid
  | partition name =>
      rw [mem_dependents_partition] at hid ⊢
      rcases hid with ⟨a, ha, hmem⟩ | ⟨r, hr, hmem⟩
      · exact .inl ⟨a, ha, withAncestors_closed hd hmem hj⟩
      · exact .inr ⟨r, hr, withAncestors_closed hd hmem hj⟩

/-! ## 2. What is not stale -/

/-- A region that is not stale does not lie above the region of the parameter, nor is it that. -/
theorem not_mem_nest_of_not_stale (hd : d.preorder.Nodup) (hp : p.region? = some r)
    (hid : id ∉ d.dependents p) {n : Nest} (hn : d.find? id = some n) : r ∉ n.ids := by
  have hanc : id ∉ d.withAncestors r := by
    cases p with
    | partition _ => cases hp
    | pipeline _ => cases hp; exact hid
    | dataflow _ => cases hp; exact hid
    | unroll _ => cases hp; exact fun h => hid (List.mem_append_right _ h)
    | tile _ => cases hp; exact fun h => hid (List.mem_append_right _ h)
  intro hr
  rcases (mem_nest_ids_iff hd hn).mp hr with rfl | h
  · exact hanc List.mem_cons_self
  · exact hanc (List.mem_cons_of_mem _ h)

theorem gate_alter (hp : p = .pipeline r ∨ p = .dataflow r) (s : Setting) (q : Region) :
    (Region.alter r (p.change s) q).gate = q.gate := by
  obtain ⟨i, k, o⟩ := q
  unfold Region.alter
  by_cases hi : i = r
  · rw [if_pos hi]
    rcases hp with rfl | rfl <;> cases s <;> cases k <;> rfl
  · rw [if_neg hi]

/-- Around a region that is not stale the gates are as they were. -/
theorem gate_of_not_stale (hd : d.preorder.Nodup) (hp : p.region? = some r)
    (hid : id ∉ d.dependents p) {n : Nest} (hn : n ∈ d.above id) :
    (Region.alter r (p.change s) n.region).gate = n.region.gate := by
  have hanc : n.region.id ∈ d.ancestors id := List.mem_reverse.mpr (List.mem_map_of_mem hn)
  have houtside : id ∉ d.subtree r →
      (Region.alter r (p.change s) n.region).gate = n.region.gate := by
    intro hsub
    have hne : n.region.id ≠ r := by
      rintro rfl
      exact hsub ((mem_subtree_iff hd).mpr ⟨(mem_preorder_of_ancestor hd hanc).2, .inr hanc⟩)
    rw [Region.alter, if_neg hne]
  cases p with
  | partition _ => cases hp
  | pipeline _ => cases hp; exact gate_alter (.inl rfl) s n.region
  | dataflow _ => cases hp; exact gate_alter (.inr rfl) s n.region
  | unroll _ => cases hp; exact houtside fun h => hid (List.mem_append_left _ h)
  | tile _ => cases hp; exact houtside fun h => hid (List.mem_append_left _ h)

/-- The nest of a region that is not stale does not access the array of the parameter. -/
theorem access_of_not_stale (hd : d.preorder.Nodup) {name : String}
    (hid : id ∉ d.dependents (.partition name)) {n : Nest} (hn : d.find? id = some n) :
    ∀ a ∈ n.accesses, a.array ≠ name := by
  rintro a ha rfl
  obtain ⟨q, hq, haq⟩ := List.mem_flatMap.mp ha
  obtain ⟨m, hm, rfl⟩ := List.mem_map.mp hq
  -- the region of the access lies in the nest, so the nest is stale with it
  have hmem : m ∈ d.forest.nests := Forest.nests_nest_subset (Forest.find?_mem hn).1 m hm
  have hacc : m.region.id ∈ d.accessors a.array :=
    mem_accessors_iff.mpr ⟨m, hmem, rfl, a, haq, rfl⟩
  have hin : m.region.id ∈ n.ids := List.mem_map_of_mem (List.mem_map_of_mem hm)
  refine hid (mem_dependents_partition.mpr (.inr ⟨_, hacc, ?_⟩))
  rcases (mem_nest_ids_iff hd hn).mp hin with h | h
  · exact List.mem_cons.mpr (.inl h.symm)
  · exact List.mem_cons_of_mem _ h

/-- The nest of a region that is not stale does not hold the scope of the array either. -/
theorem scope_of_not_stale (hd : d.preorder.Nodup) {name : String}
    (hid : id ∉ d.dependents (.partition name)) {n : Nest} (hn : d.find? id = some n)
    {a : ArrayDecl} (ha : d.array? name = some a) : d.scopeOf a ∉ n.ids := by
  intro hin
  refine hid (mem_dependents_partition.mpr (.inl ⟨a, ha, ?_⟩))
  rcases (mem_nest_ids_iff hd hn).mp hin with h | h
  · exact List.mem_cons.mpr (.inl h.symm)
  · exact List.mem_cons_of_mem _ h

end Design

/-- **A region that is not stale keeps its estimate.** -/
theorem Estimator.estimate?_write (e : Estimator) {d d' : Design} {p : Parameter} {s : Setting}
    {id : RegionId} (hd : d.preorder.Nodup) (h : d.write p s = .ok d') (hid : id ∉ d.stale p) :
    e.estimate? d' id = e.estimate? d id := by
  rw [Design.mem_stale_iff] at hid
  obtain ⟨r, _, hp, -, -, -, rfl⟩ | ⟨name, k, a, rfl, -, -, rfl⟩ := Design.write_cases h
  · refine estimate?_map (directing_alter r (p.bare_change s))
      (Design.forest_updateRegion_map d r _) rfl (Design.root_id_updateRegion d r _)
      (fun n hn q hq => ?_) fun n hn => Design.gate_of_not_stale hd hp hid hn
    have hne : q.id ≠ r := by
      rintro rfl
      exact Design.not_mem_nest_of_not_stale hd hp hid hn (List.mem_map_of_mem hq)
    rw [Region.alter, if_neg hne]
  · exact estimate?_updateArray (Design.banking_partition k)
      (fun n hn => Design.access_of_not_stale hd hid hn)
      fun n hn a ha => Design.scope_of_not_stale hd hid hn ha

/-! ## 3. Tables -/

namespace Annotated

variable {e : Estimator} {d d' : Design} {p : Parameter} {s : Setting} {t : Table}

/-- **After a write** a table without its stale entries is up to date. -/
theorem UpToDate.write (h : UpToDate e ⟨d, t⟩) (hw : d.write p s = .ok d') :
    UpToDate e ⟨d', t.invalidate (d'.stale p)⟩ := by
  have hstale : ∀ id, id ∈ d'.stale p ↔ id ∈ d.stale p := fun id => Design.mem_stale_write hw
  refine h.invalidate (Design.forest_of_bare (Design.bare_write hw)) (fun id hid => ?_)
    fun id hid j hj => ?_
  · exact e.estimate?_write h.distinct hw fun hs => hid ((hstale id).mpr hs)
  · exact (hstale j).mpr (Design.stale_closed h.distinct ((hstale id).mp hid) hj)

/-! ## 4. Changes -/

/-- **What a change can do**: nothing, for want of the parameter or of the type; the write, where
    the result keeps the rules; or the write and then the value before again. -/
theorem set_cases (a : Annotated) (hd : a.design.preorder.Nodup) (p : Parameter) (s : Setting) :
    (∃ err, a.set p s = (.error err, a)) ∨
    (∃ previous d, a.design.setting p = .ok previous ∧ a.design.write p s = .ok d ∧
      d.check = .ok () ∧ a.set p s = (.ok ⟨p, previous⟩, ⟨d, a.table.invalidate (d.stale p)⟩)) ∨
    (∃ d defect back, a.design.write p s = .ok d ∧ d.check = .error defect ∧
      a.design.Alike back ∧ a.set p s = (.error (.invalid defect), ⟨back, a.table⟩)) := by
  unfold set
  cases hs : a.design.setting p with
  | error err => exact .inl ⟨err, rfl⟩
  | ok previous =>
      cases hw : a.design.write p s with
      | error err => exact .inl ⟨err, rfl⟩
      | ok d =>
          dsimp only
          cases hc : d.check with
          | ok _ => exact .inr (.inl ⟨previous, d, rfl, rfl, hc, rfl⟩)
          | error defect =>
              obtain ⟨back, hback, halike⟩ := Design.write_previous hd hs hw
              exact .inr (.inr ⟨d, defect, back, rfl, hc, halike, by rw [hback]⟩)

/-- A change that is taken back is a write. -/
theorem undo_eq_ok_iff {a b : Annotated} {c : Change} :
    a.undo c = .ok b ↔ ∃ d, a.design.write c.parameter c.previous = .ok d ∧
      b = ⟨d, a.table.invalidate (d.stale c.parameter)⟩ := by
  rw [undo, Attempt.bind_eq_ok_iff]
  constructor
  · rintro ⟨d, hd, hb⟩
    exact ⟨d, hd, (Except.ok.inj hb).symm⟩
  · rintro ⟨d, hd, rfl⟩
    exact ⟨d, hd, rfl⟩

/-- A change leaves the table up to date, whether it succeeds or not. -/
theorem UpToDate.set {a : Annotated} (h : UpToDate e a) (p : Parameter) (s : Setting) :
    UpToDate e (a.set p s).2 := by
  obtain ⟨_, hset⟩ | ⟨_, d, _, hw, _, hset⟩ | ⟨_, _, back, _, _, halike, hset⟩ :=
    a.set_cases h.distinct p s
  · rw [hset]
    exact h
  · rw [hset]
    exact h.write hw
  · rw [hset]
    exact h.ofAlike halike

theorem UpToDate.undo {a b : Annotated} {c : Change} (h : UpToDate e a) (hb : a.undo c = .ok b) :
    UpToDate e b := by
  obtain ⟨d, hw, rfl⟩ := undo_eq_ok_iff.mp hb
  exact h.write hw

/-- Neither a change nor its taking back touches anything but directives and banks. -/
theorem bare_set (a : Annotated) (hd : a.design.preorder.Nodup) (p : Parameter) (s : Setting) :
    (a.set p s).2.design.bare = a.design.bare := by
  obtain ⟨_, hset⟩ | ⟨_, d, _, hw, _, hset⟩ | ⟨_, _, back, _, _, halike, hset⟩ :=
    a.set_cases hd p s
  · rw [hset]
  · rw [hset]
    exact Design.bare_write hw
  · rw [hset]
    exact halike.bare_eq

theorem bare_undo {a b : Annotated} {c : Change} (hb : a.undo c = .ok b) :
    b.design.bare = a.design.bare := by
  obtain ⟨d, hw, rfl⟩ := undo_eq_ok_iff.mp hb
  exact Design.bare_write hw

end Annotated

end DesignSpace
