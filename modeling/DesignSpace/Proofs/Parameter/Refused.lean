/-
  Subject:   CHANGES THAT ARE REFUSED. A parameter that cannot be set leaves the design and its
             estimates as they were, with one exception: a tile that is written out although it is
             as long as its loop is lost when another one is refused.

  * `Design.write_setting`: the value that is there, written again;
  * `Annotated.set_error_cases`: what is left after any refusal;
  * `Annotated.eq_of_set_error`: **nothing is changed, or that tile is left out**;
  * `Whole.tile_lost`: a design that loses one.
-/
import DesignSpace.Proofs.Design.Distinct
import DesignSpace.Proofs.Parameter.Overwrite

namespace DesignSpace

variable {p : Parameter} {s previous : Setting}

/-! ## 1. The value that is there -/

namespace Design

variable {d d' : Design} {id : RegionId} {n : Nest} {name : String}

/-- The change of one region is what it makes of the kind of that region. -/
theorem updateRegion_congr (hd : d.preorder.Nodup) (hn : d.find? id = some n) {f g : Kind → Kind}
    (h : f n.region.kind = g n.region.kind) : d.updateRegion id f = d.updateRegion id g := by
  refine eq_of_forest rfl ?_ rfl
  rw [forest_updateRegion_map, forest_updateRegion_map]
  refine Forest.map_congr fun r hr => ?_
  by_cases hid : r.id = id
  · have hr' := eq_of_mem_regions hd hn hr hid
    simp only [Region.alter, hr', h]
  · simp only [Region.alter, if_neg hid]

theorem updateRegion_id (d : Design) (id : RegionId) : d.updateRegion id (fun k => k) = d := by
  refine eq_of_forest rfl ?_ rfl
  have hid : Region.alter id (fun k => k) = fun r => r := by
    funext r
    exact ite_self r
  rw [forest_updateRegion_map, hid]
  exact Forest.map_id d.forest

/-- The banks that an array has, written again. -/
theorem updateArray_partition {a : ArrayDecl} (ha : d.array? name = some a) :
    (d.updateArray name fun x => { x with partition := a.partition }) = d := by
  rw [← updateArray_updateArray d name a.partition 1]
  exact eq_of_forest rfl rfl (update_update_partition ha 1)

/-- **The value that is there, written again**, changes nothing; but a tile that is as long as its
    loop is then written as none. -/
theorem write_setting (hd : d.preorder.Nodup) (hs : d.setting p = .ok s) :
    d.write p s = .ok d ∨ ∃ id l trip, p = .tile id ∧ d.loop? id = some l ∧
      l.trip.bounded = some trip ∧ l.directives.tile = some trip ∧
        d.write p s = .ok (d.updateRegion id Kind.plain) := by
  cases hp : p.region? with
  | none =>
      cases p with
      | partition name =>
          obtain ⟨a, ha, rfl⟩ := setting_partition_eq_ok_iff.mp hs
          have hw : d.write (.partition name) (.factor a.partition) = .ok _ :=
            write_partition_eq_ok_iff.mpr ⟨_, a, rfl, ha, rfl⟩
          rw [updateArray_partition ha] at hw
          exact .inl hw
      | pipeline _ => cases hp
      | unroll _ => cases hp
      | tile _ => cases hp
      | dataflow _ => cases hp
  | some id =>
      obtain ⟨n, hn, hvalue⟩ := (setting_eq_ok_iff hp).mp hs
      have hw : d.write p s = .ok (d.updateRegion id (p.change s)) :=
        (write_eq_ok_iff hp).mpr ⟨Parameter.accepts_of_value? hvalue,
          ⟨n, hn, Parameter.suits_of_value? hvalue⟩, rfl⟩
      rcases Parameter.change_value hvalue with hself | ⟨r, rfl, hplain⟩
      · rw [updateRegion_congr hd hn (g := fun k => k) hself, updateRegion_id] at hw
        exact .inl hw
      · obtain rfl : r = id := Option.some.inj hp
        rw [updateRegion_congr hd hn hplain] at hw
        obtain ⟨l, trip, hk, ht⟩ : ∃ l trip, n.region.kind = .loop l ∧
            l.trip.bounded = some trip := by
          cases hk : n.region.kind with
          | loop l =>
              rw [hk] at hvalue
              obtain ⟨_, htile, -⟩ := Option.map_eq_some_iff.mp hvalue
              obtain ⟨trip, ht, -⟩ := Option.map_eq_some_iff.mp htile
              exact ⟨l, trip, rfl, ht⟩
          | block _ => rw [hk] at hvalue; cases hvalue
          | func _ => rw [hk] at hvalue; cases hvalue
          | dataflow => rw [hk] at hvalue; cases hvalue
        by_cases htile : l.directives.tile = some trip
        · refine .inr ⟨r, l, trip, rfl, ?_, ht, htile, hw⟩
          unfold loop? Region.loop?
          rw [hn]
          simp [hk]
        · have hself : n.region.kind.plain = n.region.kind := by
            rw [hk]
            show Kind.loop l.plain = .loop l
            unfold Loop.plain
            rw [ht, if_neg htile]
          rw [updateRegion_congr hd hn (g := fun k => k) hself, updateRegion_id] at hw
          exact .inl hw

end Design

/-! ## 2. Refusals -/

namespace Annotated

variable {a b : Annotated} {err : ChangeError}

/-- **What is left after a refusal**: what was there, or the same without a tile that is as long as
    its loop, where another tile was refused. -/
theorem set_error_cases (hd : a.design.preorder.Nodup) (h : a.set p s = (.error err, b)) :
    b = a ∨ ∃ id l trip defect, p = .tile id ∧ a.design.loop? id = some l ∧
      l.trip.bounded = some trip ∧ l.directives.tile = some trip ∧ err = .invalid defect ∧
        b = ⟨a.design.updateRegion id Kind.plain, a.table⟩ := by
  unfold set at h
  cases hs : a.design.setting p with
  | error e =>
      simp only [hs] at h
      exact .inl (congrArg Prod.snd h).symm
  | ok previous =>
      cases hw : a.design.write p s with
      | error e =>
          simp only [hs, hw] at h
          exact .inl (congrArg Prod.snd h).symm
      | ok d =>
          cases hc : d.check with
          | ok _ =>
              simp only [hs, hw, hc] at h
              cases congrArg Prod.fst h
          | error defect =>
              -- the value before is written back as if nothing had been written
              rcases Design.write_setting hd hs with hback | ⟨id, l, trip, hp, hl, ht, htile, hback⟩
              · have hback' := (Design.write_write_iff hw).mpr hback
                simp only [hs, hw, hc, hback'] at h
                exact .inl (congrArg Prod.snd h).symm
              · have hback' := (Design.write_write_iff hw).mpr hback
                simp only [hs, hw, hc, hback'] at h
                obtain ⟨herr, rfl⟩ := Prod.mk.inj h
                exact .inr ⟨id, l, trip, defect, hp, hl, ht, htile, (Except.error.inj herr).symm,
                  rfl⟩

/-- **A refusal changes nothing**, whatever the reason: in the design of a listing, after a
    parameter could not be set, the estimates are those from before, and the design is written as
    the same listing. The one exception is a tile that the listing gives although it is as long as
    the loop: it is left out after another tile for that loop has broken a rule. -/
theorem eq_of_set_error {l : Listing} {d : Design} {t : Table} (hd : l.design = .ok d)
    (h : (⟨d, t⟩ : Annotated).set p s = (.error err, b)) :
    b.table = t ∧ (b.design.listing = d.listing ∨ ∃ id loop trip defect,
      p = .tile id ∧ d.loop? id = some loop ∧ loop.trip.bounded = some trip ∧
        loop.directives.tile = some trip ∧ err = .invalid defect ∧
          b.design = d.updateRegion id Kind.plain) := by
  rcases set_error_cases (a := ⟨d, t⟩) (Listing.nodup_of_design hd) h with
    rfl | ⟨id, loop, trip, defect, hp, hl, ht, htile, herr, rfl⟩
  · exact ⟨rfl, .inl rfl⟩
  · exact ⟨rfl, .inr ⟨id, loop, trip, defect, hp, hl, ht, htile, herr, rfl⟩⟩

/-- A tile of five is refused for a loop of sixteen iterations that is in tiles of eight. -/
theorem eq_of_set_error_smoothing : Smoothing.listing.design = .ok Smoothing.design ∧
    ∃ err b, (⟨Smoothing.design, .empty⟩ : Annotated).set (.tile 1) (.factor 5) =
        (.error err, b) ∧
      b.table = .empty ∧ b.design.listing = Smoothing.design.listing := by
  obtain ⟨err, b, hset⟩ : ∃ err b,
      (⟨Smoothing.design, .empty⟩ : Annotated).set (.tile 1) (.factor 5) = (.error err, b) :=
    ⟨_, _, rfl⟩
  obtain ⟨htable, hlisting | ⟨id, loop, trip, _, hp, hl, ht, htile, -⟩⟩ :=
    eq_of_set_error Smoothing.design_listing hset
  · exact ⟨Smoothing.design_listing, err, b, hset, htable, hlisting⟩
  · obtain rfl := Parameter.tile.inj hp
    obtain rfl : Smoothing.double = loop := Option.some.inj hl
    rw [← ht] at htile
    exact absurd htile (by decide)

end Annotated

/-! ## 3. A tile that is lost -/

namespace Whole

/-- A loop in one tile, which is written out. -/
def listing : Listing where
  name := "whole"
  records :=
    [⟨⟨0, .func { name := "top" }, none⟩, none⟩,
     ⟨⟨1, .loop { iv := "i", trip := .static 16, directives := ⟨false, 1, some 16⟩ }, none⟩,
       some 0⟩,
     ⟨⟨2, .block { ops := [⟨.add, 32⟩] }, none⟩, some 1⟩]

/-- The loop as a tree. -/
def design : Design where
  name := "whole"
  root := ⟨0, .func { name := "top" }, none⟩
  below :=
    .cons ⟨1, .loop { iv := "i", trip := .static 16, directives := ⟨false, 1, some 16⟩ }, none⟩
      (.cons ⟨2, .block { ops := [⟨.add, 32⟩] }, none⟩ .nil .nil) .nil
  arrays := []

/-- **The tile is lost** when one of five is refused: the value written back is that of the whole
    loop, which is written as none. -/
theorem tile_lost : listing.design = .ok design ∧ ∃ err b,
    (⟨design, .empty⟩ : Annotated).set (.tile 1) (.factor 5) = (.error err, b) ∧
      b.design.listing ≠ design.listing :=
  ⟨by decide +kernel, _, _, rfl, by decide +kernel⟩

end Whole

end DesignSpace
