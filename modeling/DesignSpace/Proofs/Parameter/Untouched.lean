/-
  Subject:   WHAT A WRITE LEAVES ALONE. A write of a parameter changes one directive, or the banks
             of one array: the other parameters keep their values, and the listing of the design is
             as before but for what the parameter names.

  * `Design.setting_write_of_ne`: **the other parameters keep their values**;
  * `Listing.without`: a listing with the directives and banks left out that some parameters name;
  * `Design.without_write`: **a write changes nothing but what its parameter names**;
  * `Design.Alike.without_eq`: the listings of designs that are alike.
-/
import DesignSpace.Design.Listing
import DesignSpace.Proofs.Parameter.Overwrite

namespace DesignSpace

variable {p q : Parameter} {s s' : Setting} {ps : List Parameter} {d d' : Design}

/-! ## 1. The other parameters -/

/-- A change of a region leaves its other parameters alone. -/
theorem Parameter.value?_change_of_ne (h : q ≠ p) (hregion : q.region? = p.region?) (s : Setting)
    (k : Kind) : q.value? (p.change s k) = q.value? k := by
  cases p <;> cases q <;>
    first
      | exact absurd (by cases hregion; rfl) h
      | cases s <;> cases k <;> rfl

/-- **The other parameters keep their values.** -/
theorem Design.setting_write_of_ne (hw : d.write p s = .ok d') (h : q ≠ p) :
    d'.setting q = .ok s' ↔ d.setting q = .ok s' := by
  cases hq : q.region? with
  | none =>
      cases q with
      | partition x =>
          rw [setting_partition_eq_ok_iff, setting_partition_eq_ok_iff]
          have harray : d'.array? x = d.array? x := by
            obtain ⟨id, n, -, -, -, -, rfl⟩ | ⟨name, k, a, rfl, -, -, rfl⟩ := write_cases hw
            · rfl
            · rw [array?_updateArray d (banking_partition k)]
              exact if_neg fun hx => h (congrArg Parameter.partition hx)
          rw [harray]
      | _ => cases hq
  | some j =>
      rw [setting_eq_ok_iff hq, setting_eq_ok_iff hq]
      obtain ⟨id, n, hp, -, -, -, rfl⟩ | ⟨name, k, a, rfl, -, -, rfl⟩ := write_cases hw
      · have hvalue : ∀ m : Nest, m.region.id = j →
            q.value? (m.map (Region.alter id (p.change s))).region.kind =
              q.value? m.region.kind := by
          intro m hm
          show q.value? (Region.alter id (p.change s) m.region).kind = _
          rw [Region.alter]
          by_cases hid : m.region.id = id
          · rw [if_pos hid]
            refine Parameter.value?_change_of_ne h ?_ s m.region.kind
            rw [hq, hp, ← hm, hid]
          · rw [if_neg hid]
        rw [find?_updateRegion id j (p.bare_change s)]
        cases hn : d.find? j with
        | none => simp
        | some m => simp [hvalue m (Forest.find?_mem hn).2]
      · rfl

/-! ## 2. Listings without some directives -/

/-- A region with the directives left out that some parameters name. -/
def Region.without (ps : List Parameter) (r : Region) : Region :=
  { r with kind :=
    match r.kind with
    | .loop l =>
      .loop { l with directives :=
        { pipeline := if .pipeline r.id ∈ ps then false else l.directives.pipeline
          unroll := if .unroll r.id ∈ ps then 1 else l.directives.unroll
          tile := if .tile r.id ∈ ps then none else l.directives.tile } }
    | .func f =>
      .func { f with directives :=
        { f.directives with
          dataflow := if .dataflow r.id ∈ ps then 1 else f.directives.dataflow } }
    | k => k }

/-- An array with its banks left out, if some parameter names them. -/
def ArrayDecl.without (ps : List Parameter) (a : ArrayDecl) : ArrayDecl :=
  { a with partition := if .partition a.name ∈ ps then 1 else a.partition }

/-- A listing with the directives and banks left out that some parameters name. -/
def Listing.without (ps : List Parameter) (l : Listing) : Listing :=
  { l with
    records := l.records.map fun q => { q with region := q.region.without ps }
    arrays := l.arrays.map (ArrayDecl.without ps) }

/-- The records of a forest with every region changed, where the numbers stay. -/
theorem Forest.records_map {g : Region → Region} (hg : ∀ r, (g r).id = r.id)
    (parent : Option RegionId) (f : Forest) :
    (f.map g).records parent = (f.records parent).map fun q => { q with region := g q.region } := by
  induction f generalizing parent with
  | nil => rfl
  | cons r below after ihb iha =>
      rw [map, records, records, ihb, iha, hg, List.map_cons, List.map_append]

namespace Design

/-- Where name, regions and arrays are the same without some directives, so are the listings. -/
theorem without_eq (hname : d'.name = d.name)
    (hforest : d'.forest.map (Region.without ps) = d.forest.map (Region.without ps))
    (harrays : d'.arrays.map (ArrayDecl.without ps) = d.arrays.map (ArrayDecl.without ps)) :
    d'.listing.without ps = d.listing.without ps := by
  have hlisting : ∀ c : Design, c.listing.without ps =
      ⟨c.name, (c.forest.map (Region.without ps)).records none,
        c.arrays.map (ArrayDecl.without ps)⟩ := by
    intro c
    rw [Forest.records_map (g := Region.without ps) fun _ => rfl]
    rfl
  rw [hlisting, hlisting, hname, hforest, harrays]

end Design

/-! ## 3. Writes -/

/-- A directive that is left out can have any value. -/
theorem Region.without_alter {id : RegionId} (hp : p.region? = some id) (hmem : p ∈ ps)
    (s : Setting) (r : Region) : (alter id (p.change s) r).without ps = r.without ps := by
  unfold alter
  by_cases hid : r.id = id
  · rw [if_pos hid]
    obtain ⟨i, k, c⟩ := r
    obtain rfl : i = id := hid
    cases p <;> cases hp <;> cases s <;> cases k <;>
      simp [without, Parameter.change, hmem]
  · rw [if_neg hid]

/-- So can banks that are left out. -/
theorem map_without_update {name : String} (hmem : .partition name ∈ ps) (k : Nat)
    (arrays : List ArrayDecl) :
    (Design.updateArray.update name (fun a => { a with partition := k }) arrays).map
      (ArrayDecl.without ps) = arrays.map (ArrayDecl.without ps) := by
  induction arrays with
  | nil => rfl
  | cons a as ih =>
      by_cases ha : a.name = name
      · simp [Design.updateArray.update, ArrayDecl.without, ha, hmem]
      · simp [Design.updateArray.update, ha, ih]

namespace Design

/-- **A write changes nothing but what its parameter names.** -/
theorem without_write (hw : d.write p s = .ok d') (hmem : p ∈ ps) :
    d'.listing.without ps = d.listing.without ps := by
  obtain ⟨id, n, hp, -, -, -, rfl⟩ | ⟨name, k, a, rfl, -, -, rfl⟩ := write_cases hw
  · refine without_eq rfl ?_ rfl
    rw [forest_updateRegion_map, Forest.map_map]
    exact Forest.map_congr fun r _ => Region.without_alter hp hmem s r
  · exact without_eq rfl rfl (map_without_update hmem k d.arrays)

/-- The tiles of all bounded loops are among some parameters. -/
def TilesAmong (ps : List Parameter) (d : Design) : Prop :=
  ∀ r ∈ d.forest.regions, ∀ l, r.kind = .loop l → l.trip.bounded.isSome → .tile r.id ∈ ps

/-- A tile as long as the loop is left out with the tiles of all bounded loops. -/
theorem TilesAmong.map_plain (h : d.TilesAmong ps) :
    (d.forest.map Region.plain).map (Region.without ps) = d.forest.map (Region.without ps) := by
  rw [Forest.map_map]
  refine Forest.map_congr fun r hr => ?_
  obtain ⟨id, k, c⟩ := r
  cases k with
  | loop l =>
      show Region.without ps ⟨id, .loop l.plain, c⟩ = Region.without ps ⟨id, .loop l, c⟩
      have htile : (if .tile id ∈ ps then none else l.plain.directives.tile) =
          if .tile id ∈ ps then none else l.directives.tile := by
        by_cases hmem : .tile id ∈ ps
        · rw [if_pos hmem, if_pos hmem]
        · rw [if_neg hmem, if_neg hmem]
          -- a loop whose tile is not among the parameters has no number of iterations
          have hbounded : l.trip.bounded = none := by
            cases hb : l.trip.bounded with
            | none => rfl
            | some n => exact absurd (h _ hr l rfl (by rw [hb]; rfl)) hmem
          unfold Loop.plain
          rw [hbounded]
          cases l.directives.tile <;> rfl
      have hloop := congrArg (fun t => Region.mk id (.loop { l with directives :=
        { pipeline := if .pipeline id ∈ ps then false else l.directives.pipeline
          unroll := if .unroll id ∈ ps then 1 else l.directives.unroll
          tile := t } }) c) htile
      exact hloop
  | block _ => rfl
  | func _ => rfl
  | dataflow => rfl

/-- **The listings of designs that are alike** are the same without the tiles of bounded loops. -/
theorem Alike.without_eq (h : d.Alike d') (hd : d.TilesAmong ps) (hd' : d'.TilesAmong ps) :
    d'.listing.without ps = d.listing.without ps := by
  refine Design.without_eq h.name.symm ?_ (congrArg _ h.arrays.symm)
  rw [← hd'.map_plain, ← h.forest, hd.map_plain]

end Design

end DesignSpace
