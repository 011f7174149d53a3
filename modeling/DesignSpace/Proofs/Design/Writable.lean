/-
  Subject:   DIRECTIVES THAT KEEP THE RULES CAN BE WRITTEN. The rules bound each directive by a
             number of the design that is no directive. So a design that was read from a text can be
             written and read again whatever directives it is given.

  * `Loop.expressible_of_check`: the directives of a loop are bounded by its trip count;
  * `Design.length_children_lt`, `length_children_le`: a region has fewer parts than the design has
    regions, and no more than there are numbers for them;
  * `Design.expressible_of_bare`: what a text can hold is no matter of directives;
  * `Design.parse_dump_of_bare`: **a design with other directives is read from its own text.**
-/
import DesignSpace.Proofs.Design.RoundTrip
import DesignSpace.Proofs.Design.WellFormed
import DesignSpace.Proofs.Parameter.Untouched

namespace DesignSpace

/-! ## 1. Directives of one region -/

/-- **Unrolling and tiles** are no longer than the loop. -/
theorem Loop.expressible_of_check {l : Loop} {innerStatic : Bool} (ht : l.trip.Expressible)
    (hc : l.check innerStatic = .ok ()) : l.Expressible := by
  obtain ⟨-, -, hrules⟩ := check_eq_ok_iff.mp hc
  refine ⟨ht, ?_⟩
  cases hb : l.trip.bounded with
  | none =>
      rw [hb] at hrules
      obtain ⟨hunroll, htile⟩ := hrules
      refine ⟨Nat.le_trans hunroll (by decide), fun t htile' => ?_⟩
      exact absurd (htile.symm.trans htile') nofun
  | some n =>
      rw [hb] at hrules
      obtain ⟨hne, htile, hunroll⟩ := hrules
      have hn : n ≤ Count.limit := ht n (Trip.fixed_iff.mpr hb).1
      have htile := Nat.le_of_dvd (Trip.pos_of_bounded hb) htile
      have hunroll := Nat.le_of_dvd (Nat.pos_of_ne_zero hne) hunroll
      refine ⟨by omega, fun t ht => ?_⟩
      rw [ht] at htile
      exact Nat.le_trans htile hn

/-- **Banks** are no more than the last extent. -/
theorem ArrayDecl.partition_le_of_check {a : ArrayDecl} (hshape : ∀ n ∈ a.shape, n ≤ Count.limit)
    (hc : a.check = .ok ()) : a.partition ≤ Count.limit := by
  obtain ⟨⟨hne, hpos⟩, -, -, hbanks⟩ := a.check_eq_ok_iff.mp hc
  have hlast : a.lastExtent ∈ a.shape := by
    unfold lastExtent
    rw [List.getLast?_eq_some_getLast hne]
    exact List.getLast_mem hne
  have hle := Nat.le_of_dvd (hpos _ hlast) (Nat.dvd_of_mod_eq_zero hbanks)
  exact Nat.le_trans hle (hshape _ hlast)

/-- What a text can hold of a region without its directives, it can hold with directives that it can
    hold. -/
theorem Kind.expressible_of_bare {k k' : Kind} (hk : k.Expressible) (hbare : k'.bare = k.bare)
    (hloop : ∀ l, k' = .loop l → l.trip.Expressible → l.Expressible)
    (hfunc : ∀ f, k' = .func f → f.Expressible) : k'.Expressible := by
  cases k' with
  | block b =>
      cases k with
      | block b' =>
          obtain rfl := Kind.block.inj hbare
          exact hk
      | _ => cases hbare
  | loop l =>
      cases k with
      | loop l' =>
          have hhead : { l with directives := {} } = { l' with directives := {} } :=
            Kind.loop.inj hbare
          have htrip : l.trip = l'.trip := (congrArg Loop.trip hhead :)
          exact hloop l rfl (htrip ▸ hk.trip)
      | _ => cases hbare
  | func f => exact hfunc f rfl
  | dataflow => trivial

/-! ## 2. The parts of a region -/

theorem Forest.roots_sublist_ids (f : Forest) :
    (f.roots.map fun n => n.region.id).Sublist f.ids := by
  induction f with
  | nil => exact List.Sublist.refl _
  | cons r below after _ iha =>
      rw [ids_cons, roots, List.map_cons]
      exact (iha.trans (List.sublist_append_right _ _)).cons_cons r.id

/-- Distinct numbers up to a limit are no more than one above the limit. -/
theorem length_le_of_nodup {ids : List Nat} {limit : Nat} (hids : ids.Nodup)
    (hle : ∀ id ∈ ids, id ≤ limit) : ids.length ≤ limit + 1 := by
  have hsub : ids ⊆ List.range (limit + 1) := fun id hid =>
    List.mem_range.mpr (Nat.lt_succ_of_le (hle id hid))
  have hlength := (List.subperm_of_subset hids hsub).length_le
  rwa [List.length_range] at hlength

namespace Design

variable {d d' : Design} {n : Nest}

/-- **Parts are fewer than regions**: a region and its parts have distinct numbers. -/
theorem length_children_lt (hd : d.preorder.Nodup) (hn : n ∈ d.forest.nests) :
    n.children.length < d.preorder.length := by
  have hsub := n.below.roots_sublist_ids
  have hnodup : (n.region.id :: n.below.roots.map fun c => c.region.id).Nodup :=
    List.nodup_cons.mpr ⟨fun h => Forest.not_mem_below_self hd hn (hsub.subset h),
      (Forest.nodup_below hd hn).sublist hsub⟩
  have hmem : (n.region.id :: n.below.roots.map fun c => c.region.id) ⊆ d.preorder :=
    List.cons_subset.mpr ⟨Forest.mem_ids_of_mem_nests hn, fun _ hid =>
      Forest.mem_ids_of_mem_below hn (hsub.subset hid)⟩
  have hlength := (List.subperm_of_subset hnodup hmem).length_le
  rwa [List.length_cons, List.length_map] at hlength

/-- Parts are no more than there are numbers for them. -/
theorem length_children_le (hd : d.preorder.Nodup) {limit : Nat}
    (hids : ∀ id ∈ d.preorder, id ≤ limit) (hn : n ∈ d.forest.nests) :
    n.children.length ≤ limit :=
  Nat.le_of_lt_succ (Nat.lt_of_lt_of_le (length_children_lt hd hn) (length_le_of_nodup hd hids))

/-! ## 3. Designs with other directives -/

/-- The records of designs that differ in directives differ in directives. -/
theorem exists_record_of_bare (h : d'.bare = d.bare) {r' : Record}
    (hr' : r' ∈ d'.listing.records) : ∃ r ∈ d.listing.records,
      r'.parent = r.parent ∧ r'.id = r.id ∧ r'.region.kind.bare = r.region.kind.bare := by
  have hrecords := congrArg (Forest.records none) (forest_of_bare h)
  rw [Forest.bare, Forest.bare, Forest.records_map directing_bare.id_eq,
    Forest.records_map directing_bare.id_eq] at hrecords
  have hmem := List.mem_map_of_mem (f := fun q => { q with region := q.region.bare }) hr'
  rw [show d'.listing.records = d'.forest.records none from rfl, hrecords] at hmem
  obtain ⟨r, hr, heq⟩ := List.mem_map.mp hmem
  have hregion : r.region.bare = r'.region.bare := congrArg Record.region heq
  exact ⟨r, hr, (congrArg Record.parent heq).symm, (congrArg Region.id hregion).symm,
    (congrArg Region.kind hregion).symm⟩

/-- **What a text can hold is no matter of directives**, as long as these keep the rules. -/
theorem expressible_of_bare (h : d.listing.Expressible) (hd : d'.preorder.Nodup)
    (hbare : d'.bare = d.bare) (hc : d'.check = .ok ()) : d'.listing.Expressible := by
  obtain ⟨-, harrays, hnests⟩ := check_eq_ok_iff.mp hc
  -- numbers are no directives
  have hids : ∀ id ∈ d'.preorder, id ≤ Count.limit := by
    intro id hid
    have hid : id ∈ d'.listing.records.map Record.id := (Forest.map_id_records none _).symm ▸ hid
    obtain ⟨r', hr', rfl⟩ := List.mem_map.mp hid
    obtain ⟨r, hr, -, hid, -⟩ := exists_record_of_bare hbare hr'
    exact hid ▸ (h.records r hr).id
  refine ⟨fun r' hr' => ?_, fun a' ha' => ?_⟩
  · obtain ⟨r, hr, hparent, hid, hkind⟩ := exists_record_of_bare hbare hr'
    have hregion : r'.region ∈ d'.forest.regions :=
      Forest.map_region_records none _ ▸ List.mem_map_of_mem hr'
    obtain ⟨n, hn, hnr⟩ := List.mem_map.mp hregion
    have hrules := hnests n hn
    have hr := h.records r hr
    refine ⟨hid ▸ hr.id, hparent ▸ hr.parent, Kind.expressible_of_bare hr.kind hkind ?_ ?_⟩
    · intro l hl htrip
      exact Loop.expressible_of_check htrip ((checkNest_loop_iff (hnr ▸ hl)).mp hrules)
    · intro f hf
      have hstages := ((checkNest_func_iff (hnr ▸ hf)).mp hrules).2
      have hparts := length_children_le hd hids hn
      exact Nat.le_trans hstages (Nat.max_le.mpr ⟨hparts, by decide⟩)
  · have hmem := List.mem_map_of_mem (f := ArrayDecl.bare) ha'
    rw [show d'.listing.arrays.map ArrayDecl.bare = d.listing.arrays.map ArrayDecl.bare from
      congrArg Design.arrays hbare] at hmem
    obtain ⟨a, ha, heq⟩ := List.mem_map.mp hmem
    have ha := h.arrays a ha
    have hshape : a.shape = a'.shape := (congrArg ArrayDecl.shape heq :)
    have hbits : a.bits = a'.bits := (congrArg ArrayDecl.bits heq :)
    have hscope : a.scope = a'.scope := (congrArg ArrayDecl.scope heq :)
    have hlimit := hshape ▸ ha.shape
    exact ⟨hlimit, hbits ▸ ha.bits, hscope ▸ ha.scope,
      ArrayDecl.partition_le_of_check hlimit (harrays a' ha').1⟩

/-- **A design with other directives is read from its own text**, if it keeps the rules and the
    design with the directives from before was read from any text. -/
theorem parse_dump_of_bare {s : String} (h : parse s = .ok d) (hbare : d'.bare = d.bare)
    (hc : d'.check = .ok ()) : parse d'.dump = .ok d' := by
  obtain ⟨l, -, hl, htree, -⟩ := exists_listing_of_parse h
  have hd : d'.preorder.Nodup :=
    (preorder_of_bare (forest_of_bare hbare)).symm ▸ Listing.nodup_of_tree htree
  exact parse_of_expressible
    (expressible_of_bare (Listing.expressible_listing hl htree) hd hbare hc) (d'.tree_listing hd) hc

end Design

end DesignSpace
