/-
  Subject:   FROM EVERY DESIGN TO EVERY OTHER ONE. Between designs that keep the rules and differ in
             parameters of the standard operators only, calls of these operators lead from one to
             the other.

  The rules couple the directives of a loop: the unroll factor divides the tile, and the tile the
  trip count. So the way goes over designs in which nothing is unrolled.

  * `Registry.Move`: a call of an operator that succeeds;
  * `Design.Version`: a design that keeps the rules and differs in some parameters only;
  * `Registry.exists_moves`: **parameters set one after the other**, if each value can be set
    whatever the others among them are;
  * `Design.Version.admits_unroll_one`, `admits_of_not_unrolled`, `admits_unroll_of_tile`: the
    values on the way;
  * `Registry.standard_connected`: **the values of another design are reached**.
-/
import Mathlib.Logic.Relation
import DesignSpace.Proofs.Operator.Domain
import DesignSpace.Proofs.Operator.Targets
import DesignSpace.Proofs.Parameter.Apart

namespace DesignSpace

variable {ps qs : List Parameter} {p q : Parameter} {s : Setting} {d d' v v' : Design}
  {a b : Annotated} {o : Operator} {id : RegionId}

/-! ## 1. Designs that differ in some parameters -/

theorem Region.directing_without (ps : List Parameter) : Directing (Region.without ps) := by
  intro r
  obtain ⟨_, k, _⟩ := r
  cases k <;> rfl

/-- A parameter that is not left out has the value that it had. -/
theorem Parameter.value?_without {r : Region} (hp : p.region? = some r.id) (hmem : p ∉ ps) :
    p.value? (r.plain.without ps).kind = p.value? r.kind := by
  obtain ⟨i, k, c⟩ := r
  cases p with
  | tile j =>
      obtain rfl : j = i := Option.some.inj hp
      cases k with
      | loop l =>
          have htile : (Loop.effectiveTile { l.plain with directives :=
              { pipeline := if .pipeline j ∈ ps then false else l.directives.pipeline
                unroll := if .unroll j ∈ ps then 1 else l.directives.unroll
                tile := if .tile j ∈ ps then none else l.plain.directives.tile } }) =
              l.plain.effectiveTile := by
            unfold Loop.effectiveTile
            rw [if_neg hmem]
          exact congrArg (Option.map Setting.factor) (htile.trans l.effectiveTile_plain)
      | block _ => rfl
      | func _ => rfl
      | dataflow => rfl
  | partition _ => cases hp
  | pipeline j =>
      obtain rfl : j = i := Option.some.inj hp
      cases k <;> simp [Region.plain, Kind.plain, Loop.plain, Region.without, value?, hmem]
  | unroll j =>
      obtain rfl : j = i := Option.some.inj hp
      cases k <;> simp [Region.plain, Kind.plain, Loop.plain, Region.without, value?, hmem]
  | dataflow j =>
      obtain rfl : j = i := Option.some.inj hp
      cases k <;> simp [Region.plain, Kind.plain, Region.without, value?, hmem]

namespace Design.AlikeBut

/-- They have the same shape. -/
theorem bare_eq (h : d.AlikeBut ps d') : d.bare = d'.bare := by
  have hforest := congrArg Forest.bare h.forest
  have hwithout := Region.directing_without ps
  rw [Forest.bare_map hwithout, Forest.bare_map hwithout, Forest.bare_map directing_plain,
    Forest.bare_map directing_plain] at hforest
  have harrays := congrArg (List.map ArrayDecl.bare) h.arrays
  rw [List.map_map, List.map_map] at harrays
  exact bare_ext h.name hforest harrays

/-- Each region is the same apart from the parameters that are left out. -/
theorem map_find? (h : d.AlikeBut ps d') (id : RegionId) :
    (d.find? id).map (Nest.map (Region.without ps ∘ Region.plain)) =
      (d'.find? id).map (Nest.map (Region.without ps ∘ Region.plain)) := by
  have hforest := h.forest
  rw [Forest.map_map, Forest.map_map] at hforest
  have hid : ∀ r, ((Region.without ps ∘ Region.plain) r).id = r.id := fun _ => rfl
  rw [find?, find?, ← Forest.find?_map hid, ← Forest.find?_map hid, hforest]

/-- Each array is the same apart from the banks that are left out. -/
theorem map_array? (h : d.AlikeBut ps d') (name : String) :
    (d.array? name).map (ArrayDecl.without ps) = (d'.array? name).map (ArrayDecl.without ps) := by
  have hfind : ∀ as : List ArrayDecl, (as.find? fun a => a.name = name).map (ArrayDecl.without ps) =
      (as.map (ArrayDecl.without ps)).find? fun a => a.name = name := fun as => by
    rw [List.find?_map]
    rfl
  rw [array?, array?, hfind, hfind, h.arrays]

/-- **The other parameters keep their values**, in one direction. -/
theorem setting_of_setting (h : d.AlikeBut ps d') (hmem : p ∉ ps) (hs : d.setting p = .ok s) :
    d'.setting p = .ok s := by
  cases hp : p.region? with
  | some id =>
      obtain ⟨n, hn, hv⟩ := (setting_eq_ok_iff hp).mp hs
      have hmap := h.map_find? id
      rw [hn, Option.map_some] at hmap
      obtain ⟨n', hn', hsame⟩ := Option.map_eq_some_iff.mp hmap.symm
      have hid : p.region? = some n.region.id := by rw [hp, (Forest.find?_mem hn).2]
      have hid' : p.region? = some n'.region.id := by rw [hp, (Forest.find?_mem hn').2]
      have hkind : (n'.region.plain.without ps).kind = (n.region.plain.without ps).kind :=
        congrArg (fun m : Nest => m.region.kind) hsame
      refine (setting_eq_ok_iff hp).mpr ⟨n', hn', ?_⟩
      rw [← Parameter.value?_without hid' hmem, hkind, Parameter.value?_without hid hmem, hv]
  | none =>
      cases p with
      | partition name =>
          obtain ⟨x, hx, rfl⟩ := setting_partition_eq_ok_iff.mp hs
          have hmap := h.map_array? name
          rw [hx, Option.map_some] at hmap
          obtain ⟨y, hy, hsame⟩ := Option.map_eq_some_iff.mp hmap.symm
          have hbanks : ∀ {c : Design} {z : ArrayDecl}, c.array? name = some z →
              (z.without ps).partition = z.partition := by
            intro c z hz
            have hname : z.name = name := by simpa using List.find?_some hz
            exact if_neg fun hz => hmem (hname ▸ hz)
          refine setting_partition_eq_ok_iff.mpr ⟨y, hy, ?_⟩
          rw [← hbanks hx, ← hbanks hy, hsame]
      | _ => cases hp

/-- **The other parameters have the same values.** -/
theorem setting_iff (h : d.AlikeBut ps d') (hmem : p ∉ ps) :
    d.setting p = .ok s ↔ d'.setting p = .ok s :=
  ⟨h.setting_of_setting hmem, h.symm.setting_of_setting hmem⟩

end Design.AlikeBut

/-! ## 2. Moves -/

namespace Registry

/-- The parameters that the operators of a registry have in a design. -/
def parameters (r : Registry) (a : Annotated) : List Parameter :=
  a.design.preorder.flatMap fun id => r.operators.flatMap fun o => o.targets a id

/-- **A move**: an operator is called for a parameter that it has at a region, with a value of the
    domain that the parameter has then, and the call succeeds. -/
def Move (r : Registry) (a b : Annotated) : Prop :=
  ∃ o ∈ r.operators, ∃ id p s change,
    p ∈ o.targets a id ∧ s ∈ o.domain a p ∧ o.apply a p s = (.ok change, b)

theorem mem_parameters_iff {r : Registry} : p ∈ r.parameters a ↔
    ∃ id ∈ a.design.preorder, ∃ o ∈ r.operators, p ∈ o.targets a id := by
  simp only [parameters, List.mem_flatMap]

/-- Designs of one shape have the same parameters. -/
theorem parameters_of_bare (h : a.design.bare = b.design.bare) :
    standard.parameters a = standard.parameters b := by
  have hpreorder : a.design.preorder = b.design.preorder :=
    Design.preorder_of_bare (Design.forest_of_bare h)
  unfold parameters
  rw [hpreorder]
  refine List.flatMap_congr fun id _ => List.flatMap_congr fun o ho => targets_of_bare ho h id

end Registry

/-- **A design that keeps the rules** and differs from another one in the values of some parameters
    only. -/
structure Design.Version (ps : List Parameter) (d v : Design) : Prop where
  distinct : v.preorder.Nodup
  check : v.check = .ok ()
  alike : v.AlikeBut ps d

namespace Design.Version

/-- Versions of one design have the same shape. -/
theorem bare_eq (h : d.Version ps v) (h' : d.Version ps v') : v.bare = v'.bare :=
  h.alike.bare_eq.trans h'.alike.bare_eq.symm

/-- A version with another value of one of the parameters. -/
theorem write (h : d.Version ps v) (hmem : p ∈ ps) (hw : v.write p s = .ok v')
    (hc : v'.check = .ok ()) : d.Version ps v' where
  distinct := by
    rw [preorder_of_bare (forest_of_bare (bare_write hw))]
    exact h.distinct
  check := hc
  alike := (AlikeBut.write hmem hw).symm.trans h.alike

end Design.Version

namespace Registry

/-- **A value that can be set is one move away.** -/
theorem exists_move (h : d.Version ps a.design) (hps : ps = standard.parameters a) (hp : p ∈ ps)
    (hs : a.design.Admits p s) : ∃ b, standard.Move a b ∧ d.Version ps b.design ∧
      b.design.setting p = .ok s ∧
      ∀ q, q ≠ p → ∀ s', b.design.setting q = .ok s' ↔ a.design.setting q = .ok s' := by
  obtain ⟨id, -, o, ho, htarget⟩ := mem_parameters_iff.mp (hps ▸ hp)
  obtain ⟨hexact, hrefuses⟩ := exact_of_mem_standard h.distinct h.check ho htarget
  obtain ⟨previous, v, hprevious, hw, hc⟩ := hs
  have hdomain : s ∈ o.domain a p := (hexact.mem_iff s).mpr ⟨previous, v, hprevious, hw, hc⟩
  have hset : a.set p s = (.ok ⟨p, previous⟩, ⟨v, a.table.invalidate (v.stale p)⟩) := by
    unfold Annotated.set
    simp only [hprevious, hw, hc]
  have happly : o.apply a p s = a.set p s := by
    unfold Operator.apply
    rw [if_neg (Bool.eq_false_iff.mp hrefuses), if_pos (List.contains_iff_mem.mpr hdomain)]
  exact ⟨_, ⟨o, ho, id, p, s, _, htarget, hdomain, happly.trans hset⟩, h.write hp hw hc,
    Design.setting_write hprevious hw, fun q hq s' => Design.setting_write_of_ne hw hq⟩

/-! ## 3. One parameter after the other -/

/-- **Parameters set one after the other.** If every version that has the same values outside of a
    group of parameters admits, for each one of the group, a value that is wanted, then there is a
    way to a version that has such values, and outside of the group the values that were there. -/
theorem exists_moves (Group : Parameter → Bool) (Wanted : Parameter → Setting → Prop)
    (ha : d.Version ps a.design) (hps : ps = standard.parameters a)
    (hadmits : ∀ v, d.Version ps v →
      (∀ q, Group q = false → ∀ s, v.setting q = .ok s ↔ a.design.setting q = .ok s) →
      ∀ q ∈ ps, Group q = true → ∃ s, Wanted q s ∧ v.Admits q s) :
    ∃ b, Relation.ReflTransGen standard.Move a b ∧ d.Version ps b.design ∧
      (∀ q ∈ ps, Group q = true → ∃ s, Wanted q s ∧ b.design.setting q = .ok s) ∧
      ∀ q, Group q = false → ∀ s, b.design.setting q = .ok s ↔ a.design.setting q = .ok s := by
  -- by induction on the parameters that are looked at so far
  suffices hrow : ∀ row ⊆ ps, ∃ b, Relation.ReflTransGen standard.Move a b ∧
      d.Version ps b.design ∧
      (∀ q ∈ row, Group q = true → ∃ s, Wanted q s ∧ b.design.setting q = .ok s) ∧
      ∀ q, Group q = false → ∀ s, b.design.setting q = .ok s ↔ a.design.setting q = .ok s from
    hrow ps fun _ hq => hq
  intro row hrow
  induction row with
  | nil => exact ⟨a, .refl, ha, fun q hq => absurd hq List.not_mem_nil, fun _ _ _ => Iff.rfl⟩
  | cons p row ih =>
      obtain ⟨hp, hrow⟩ := List.cons_subset.mp hrow
      obtain ⟨b, hreach, hb, hset, hframe⟩ := ih hrow
      cases hgroup : Group p with
      | false =>
          refine ⟨b, hreach, hb, fun q hq hq' => hset q ?_ hq', hframe⟩
          refine (List.mem_cons.mp hq).resolve_left fun hqp => ?_
          rw [hqp, hgroup] at hq'
          cases hq'
      | true =>
          obtain ⟨s, hwanted, hs⟩ := hadmits b.design hb hframe p hp hgroup
          have hbps : ps = standard.parameters b := hps.trans (parameters_of_bare (ha.bare_eq hb))
          obtain ⟨b', hmove, hb', hnew, hother⟩ := exists_move hb hbps hp hs
          refine ⟨b', hreach.tail hmove, hb', fun q hq hq' => ?_, fun q hq s => ?_⟩
          · by_cases hqp : q = p
            · exact ⟨s, hqp ▸ hwanted, hqp ▸ hnew⟩
            · obtain ⟨s', hwanted', hs'⟩ := hset q ((List.mem_cons.mp hq).resolve_left hqp) hq'
              exact ⟨s', hwanted', (hother q hqp s').mpr hs'⟩
          · have hqp : q ≠ p := fun h => by
              rw [h, hgroup] at hq
              cases hq
            exact (hother q hqp s).trans (hframe q hq s)

end Registry

/-! ## 4. Values on the way -/

namespace Design

section Loops

variable {n : Nest} {l : Loop} {trip : Nat} (hn : d.find? id = some n)
  (hk : n.region.kind = .loop l)

include hn hk

theorem setting_pipeline_eq : d.setting (.pipeline id) = .ok (.flag l.directives.pipeline) :=
  (setting_eq_ok_iff rfl).mpr ⟨n, hn, by rw [hk]; rfl⟩

theorem setting_unroll_eq : d.setting (.unroll id) = .ok (.factor l.directives.unroll) :=
  (setting_eq_ok_iff rfl).mpr ⟨n, hn, by rw [hk]; rfl⟩

theorem setting_tile_eq (ht : l.trip.bounded = some trip) :
    d.setting (.tile id) = .ok (.factor (l.directives.tile.getD trip)) := by
  refine (setting_eq_ok_iff rfl).mpr ⟨n, hn, ?_⟩
  rw [hk]
  show l.effectiveTile.map _ = _
  rw [Loop.effectiveTile, ht]
  rfl

end Loops

/-- A region in another design of the same shape. -/
theorem exists_find?_of_bare {n : Nest} (h : v.bare = v'.bare) (hn : v.find? id = some n) :
    ∃ n', v'.find? id = some n' ∧ n'.map Region.bare = n.map Region.bare := by
  have hmap := find?_of_bare (forest_of_bare h) id
  rw [hn, Option.map_some] at hmap
  exact Option.map_eq_some_iff.mp hmap.symm

/-- A bounded loop in another design of the same shape. -/
theorem exists_loop_of_bare {n : Nest} {l : Loop} {trip : Nat} (h : v.bare = v'.bare)
    (hn : v.find? id = some n) (hk : n.region.kind = .loop l) (ht : l.trip.bounded = some trip) :
    ∃ n' l', v'.find? id = some n' ∧ n'.region.kind = .loop l' ∧ l'.trip.bounded = some trip ∧
      n'.innerLoopsStatic = n.innerLoopsStatic := by
  obtain ⟨n', hn', hsame⟩ := exists_find?_of_bare h hn
  have hkind : n'.region.kind.bare = n.region.kind.bare :=
    congrArg (fun m : Nest => m.region.kind) hsame
  rw [hk] at hkind
  cases hk' : n'.region.kind with
  | loop l' =>
      rw [hk'] at hkind
      injection hkind with hloop
      injection hloop with hiv htrip hdirectives
      refine ⟨n', l', hn', hk', htrip ▸ ht, ?_⟩
      rw [← Nest.innerLoopsStatic_map directing_bare n', hsame,
        Nest.innerLoopsStatic_map directing_bare]
  | block _ => rw [hk'] at hkind; cases hkind
  | func _ => rw [hk'] at hkind; cases hkind
  | dataflow => rw [hk'] at hkind; cases hkind

/-- A function in another design of the same shape. -/
theorem exists_func_of_bare {n : Nest} {f : Func} (h : v.bare = v'.bare)
    (hn : v.find? id = some n) (hk : n.region.kind = .func f) :
    ∃ n' f', v'.find? id = some n' ∧ n'.region.kind = .func f' ∧
      n'.children.length = n.children.length := by
  obtain ⟨n', hn', hsame⟩ := exists_find?_of_bare h hn
  have hkind : n'.region.kind.bare = n.region.kind.bare :=
    congrArg (fun m : Nest => m.region.kind) hsame
  rw [hk] at hkind
  cases hk' : n'.region.kind with
  | func f' =>
      refine ⟨n', f', hn', hk', ?_⟩
      rw [← Nest.length_children_map (g := Region.bare) n', hsame, Nest.length_children_map]
  | block _ => rw [hk'] at hkind; cases hkind
  | loop _ => rw [hk'] at hkind; cases hkind
  | dataflow => rw [hk'] at hkind; cases hkind

end Design

namespace Registry

/-- What the parameters of the standard operators are about. -/
theorem parameter_cases (hp : p ∈ standard.parameters a) :
    (∃ id, a.isStaticLoop id = true ∧ (p = .pipeline id ∨ p = .unroll id ∨ p = .tile id)) ∨
      (∃ name x, p = .partition name ∧ a.design.array? name = some x) ∨
      ∃ id n f, p = .dataflow id ∧ a.design.find? id = some n ∧ n.region.kind = .func f := by
  obtain ⟨id, -, o, ho, htarget⟩ := mem_parameters_iff.mp hp
  rcases mem_standard_iff.mp ho with rfl | rfl | rfl | rfl | rfl
  · obtain ⟨happlies, rfl⟩ := Operator.mem_targets_single htarget
    exact .inl ⟨id, (Bool.and_eq_true_iff.mp happlies).1, .inl rfl⟩
  · obtain ⟨happlies, rfl⟩ := Operator.mem_targets_single htarget
    exact .inl ⟨id, happlies, .inr (.inl rfl)⟩
  · obtain ⟨happlies, rfl⟩ := Operator.mem_targets_single htarget
    exact .inl ⟨id, happlies, .inr (.inr rfl)⟩
  · exact .inr (.inl (partitionOperator.exists_array htarget))
  · obtain ⟨happlies, rfl⟩ := Operator.mem_targets_single htarget
    obtain ⟨n, f, hn, hk⟩ := dataflowOperator.exists_func happlies
    exact .inr (.inr ⟨id, n, f, rfl, hn, hk⟩)

/-- Unroll factor and tile of a bounded loop are parameters. -/
theorem mem_parameters_of_isStaticLoop (h : a.isStaticLoop id = true) :
    .unroll id ∈ standard.parameters a ∧ .tile id ∈ standard.parameters a := by
  obtain ⟨n, l, trip, hn, -, -⟩ := Annotated.isStaticLoop_iff.mp h
  obtain ⟨hmem, rfl⟩ := Forest.find?_mem hn
  have hid : n.region.id ∈ a.design.preorder := Forest.mem_ids_of_mem_nests hmem
  have htarget : ∀ (p : Parameter), p ∈ (if a.isStaticLoop n.region.id then [p] else []) :=
    fun p => by rw [if_pos h]; exact List.mem_singleton_self p
  exact ⟨mem_parameters_iff.mpr ⟨_, hid, unrollOperator,
      mem_standard_iff.mpr (.inr (.inl rfl)), htarget _⟩,
    mem_parameters_iff.mpr ⟨_, hid, tileOperator,
      mem_standard_iff.mpr (.inr (.inr (.inl rfl))), htarget _⟩⟩

/-- With the unroll factor of a loop its tile is a parameter too. -/
theorem tile_mem_of_unroll_mem (h : .unroll id ∈ standard.parameters a) :
    .tile id ∈ standard.parameters a := by
  rcases parameter_cases h with
    ⟨j, hstatic, hj | hj | hj⟩ | ⟨_, _, hj, -⟩ | ⟨_, _, _, hj, -⟩ <;> cases hj
  exact (mem_parameters_of_isStaticLoop hstatic).2

/-- No loop has to be unrolled. -/
theorem admits_unroll_one (ha : d.Version ps a.design) (hp : .unroll id ∈ standard.parameters a) :
    a.design.Admits (.unroll id) (.factor 1) := by
  rcases parameter_cases hp with
    ⟨j, hstatic, hj | hj | hj⟩ | ⟨_, _, hj, -⟩ | ⟨_, _, _, hj, -⟩ <;> cases hj
  obtain ⟨n, l, trip, hn, hk, ht⟩ := Annotated.isStaticLoop_iff.mp hstatic
  exact (Design.admits_unroll_iff ha.distinct ha.check hn hk ht).mpr ⟨1, rfl, Nat.one_dvd _⟩

/-- **Where no loop is unrolled**, each other parameter can take the value that it has in another
    version. -/
theorem admits_of_not_unrolled (ha : d.Version ps a.design) (h' : d.Version ps d')
    (hp : p ∈ standard.parameters a) (hne : ∀ id, p ≠ .unroll id)
    (hone : ∀ id, .unroll id ∈ standard.parameters a →
      a.design.setting (.unroll id) = .ok (.factor 1)) :
    ∃ s, d'.setting p = .ok s ∧ a.design.Admits p s := by
  have hbare := ha.bare_eq h'
  rcases parameter_cases hp with
    ⟨id, hstatic, hkind⟩ | ⟨name, x, rfl, hx⟩ | ⟨id, n, f, rfl, hn, hk⟩
  · obtain ⟨n, l, trip, hn, hk, ht⟩ := Annotated.isStaticLoop_iff.mp hstatic
    obtain ⟨n', l', hn', hk', ht', hinner⟩ := Design.exists_loop_of_bare hbare hn hk ht
    obtain ⟨-, hpipeline, -, htile, -⟩ := Design.rules_of_bounded h'.check hn' hk' ht'
    rcases hkind with rfl | rfl | rfl
    · exact ⟨_, Design.setting_pipeline_eq hn' hk',
        (Design.admits_pipeline_iff ha.distinct ha.check hn hk).mpr
          ⟨_, rfl, fun hon => hinner ▸ hpipeline hon⟩⟩
    · exact absurd rfl (hne id)
    · -- every tile is a multiple of the unroll factor, since that is one
      have hunroll : l.directives.unroll = 1 := by
        have hone := hone id (mem_parameters_of_isStaticLoop hstatic).1
        rw [Design.setting_unroll_eq hn hk] at hone
        exact Setting.factor.inj (Except.ok.inj hone)
      exact ⟨_, Design.setting_tile_eq hn' hk' ht',
        (Design.admits_tile_iff ha.distinct ha.check hn hk ht).mpr
          ⟨_, rfl, htile, hunroll ▸ Nat.one_dvd _⟩⟩
  · have hmap := Design.array?_of_bare hbare name
    rw [hx, Option.map_some] at hmap
    obtain ⟨x', hx', hsame⟩ := Option.map_eq_some_iff.mp hmap.symm
    have hextent : x'.lastExtent = x.lastExtent := by
      have hbanks : x'.bare.lastExtent = x.bare.lastExtent := by rw [hsame]
      exact hbanks
    have hs := Design.setting_partition_eq_ok_iff.mpr ⟨x', hx', rfl⟩
    have hadmits := Design.admits_setting h'.distinct h'.check hs
    rw [Design.admits_partition_iff h'.check hx', hextent] at hadmits
    exact ⟨_, hs, (Design.admits_partition_iff ha.check hx).mpr hadmits⟩
  · obtain ⟨n', f', hn', hk', hlength⟩ := Design.exists_func_of_bare hbare hn hk
    have hs : d'.setting (.dataflow id) = .ok (.factor f'.directives.dataflow) :=
      (Design.setting_eq_ok_iff rfl).mpr ⟨n', hn', by rw [hk']; rfl⟩
    have hadmits := Design.admits_setting h'.distinct h'.check hs
    rw [Design.admits_dataflow_iff h'.distinct h'.check hn' hk', hlength] at hadmits
    exact ⟨_, hs, (Design.admits_dataflow_iff ha.distinct ha.check hn hk).mpr hadmits⟩

/-- **Where the tile of a loop has the value** that it has in another version, so can its unroll
    factor. -/
theorem admits_unroll_of_tile (ha : d.Version ps a.design) (h' : d.Version ps d')
    (hp : .unroll id ∈ standard.parameters a)
    (htile : ∀ s, d'.setting (.tile id) = .ok s → a.design.setting (.tile id) = .ok s) :
    ∃ s, d'.setting (.unroll id) = .ok s ∧ a.design.Admits (.unroll id) s := by
  rcases parameter_cases hp with
    ⟨j, hstatic, hj | hj | hj⟩ | ⟨_, _, hj, -⟩ | ⟨_, _, _, hj, -⟩ <;> cases hj
  obtain ⟨n, l, trip, hn, hk, ht⟩ := Annotated.isStaticLoop_iff.mp hstatic
  obtain ⟨n', l', hn', hk', ht', -⟩ := Design.exists_loop_of_bare (ha.bare_eq h') hn hk ht
  obtain ⟨-, -, -, -, hunroll⟩ := Design.rules_of_bounded h'.check hn' hk' ht'
  have hsame := htile _ (Design.setting_tile_eq hn' hk' ht')
  rw [Design.setting_tile_eq hn hk ht] at hsame
  have hsame : l.directives.tile.getD trip = l'.directives.tile.getD trip :=
    Setting.factor.inj (Except.ok.inj hsame)
  exact ⟨_, Design.setting_unroll_eq hn' hk',
    (Design.admits_unroll_iff ha.distinct ha.check hn hk ht).mpr ⟨_, rfl, hsame ▸ hunroll⟩⟩

end Registry

/-! ## 5. The way -/

/-- Whether a parameter is an unroll factor. -/
def Parameter.isUnroll : Parameter → Bool
  | unroll _ => true
  | _ => false

theorem Parameter.isUnroll_iff : p.isUnroll = true ↔ ∃ id, p = .unroll id := by
  cases p <;> simp [isUnroll]

namespace Registry

section Way

variable (ha : d.Version ps a.design) (h' : d.Version ps d') (hps : ps = standard.parameters a)

include ha hps

/-- The parameters are those of every version. -/
theorem parameters_version (hv : d.Version ps v) : ps = standard.parameters ⟨v, .empty⟩ :=
  hps.trans (parameters_of_bare (ha.bare_eq hv))

/-- **To begin with**, nothing is unrolled any more. -/
theorem exists_not_unrolled : ∃ b, Relation.ReflTransGen standard.Move a b ∧
    d.Version ps b.design ∧
    ∀ id, .unroll id ∈ ps → b.design.setting (.unroll id) = .ok (.factor 1) := by
  obtain ⟨b, hreach, hb, hset, -⟩ := exists_moves Parameter.isUnroll
    (fun _ s => s = .factor 1) ha hps fun v hv _ q hq hunroll => by
      obtain ⟨id, rfl⟩ := Parameter.isUnroll_iff.mp hunroll
      exact ⟨_, rfl, admits_unroll_one (a := ⟨v, .empty⟩) hv (parameters_version ha hps hv ▸ hq)⟩
  refine ⟨b, hreach, hb, fun id hid => ?_⟩
  obtain ⟨_, rfl, hone⟩ := hset _ hid rfl
  exact hone

include h'

/-- **Then** all parameters but the unroll factors get the values of the other version. -/
theorem exists_set_but_unroll
    (hone : ∀ id, .unroll id ∈ ps → a.design.setting (.unroll id) = .ok (.factor 1)) :
    ∃ b, Relation.ReflTransGen standard.Move a b ∧ d.Version ps b.design ∧
      ∀ p ∈ ps, p.isUnroll = false →
        ∃ s, d'.setting p = .ok s ∧ b.design.setting p = .ok s := by
  obtain ⟨b, hreach, hb, hset, -⟩ := exists_moves (fun p => !p.isUnroll)
    (fun p s => d'.setting p = .ok s) ha hps fun v hv hframe q hq hother => by
      have hparameters := parameters_version ha hps hv
      refine admits_of_not_unrolled (a := ⟨v, .empty⟩) hv h' (hparameters ▸ hq) ?_ fun id hid =>
        (hframe (.unroll id) rfl _).mpr (hone id (hparameters ▸ hid))
      rintro id rfl
      cases hother
  exact ⟨b, hreach, hb, fun p hp hother => hset p hp (by rw [hother]; rfl)⟩

/-- **Last**, the unroll factors get the values of the other version. -/
theorem exists_set_unroll
    (hothers : ∀ p ∈ ps, p.isUnroll = false →
      ∃ s, d'.setting p = .ok s ∧ a.design.setting p = .ok s) :
    ∃ b, Relation.ReflTransGen standard.Move a b ∧ d.Version ps b.design ∧
      ∀ p ∈ ps, ∃ s, d'.setting p = .ok s ∧ b.design.setting p = .ok s := by
  obtain ⟨b, hreach, hb, hset, hframe⟩ := exists_moves Parameter.isUnroll
    (fun p s => d'.setting p = .ok s) ha hps fun v hv hframe q hq hunroll => by
      obtain ⟨id, rfl⟩ := Parameter.isUnroll_iff.mp hunroll
      refine admits_unroll_of_tile (a := ⟨v, .empty⟩) hv h' (parameters_version ha hps hv ▸ hq)
        fun s hs => (hframe (.tile id) rfl s).mpr ?_
      have htile : .tile id ∈ ps := hps ▸ tile_mem_of_unroll_mem (hps ▸ hq)
      obtain ⟨s', hs', hset⟩ := hothers _ htile rfl
      exact hset.trans (hs'.symm.trans hs)
  refine ⟨b, hreach, hb, fun p hp => ?_⟩
  cases hunroll : p.isUnroll with
  | true => exact hset p hp hunroll
  | false =>
      obtain ⟨s, hs, hset⟩ := hothers p hp hunroll
      exact ⟨s, hs, (hframe p hunroll s).mpr hset⟩

end Way

/-- **The design space is connected.** Take two designs that are accepted and differ only in the
    values of parameters that the standard operators have there. Calls of these operators, one
    after the other, each with a value of the domain at that point and each successful, lead from
    the first design to one in which every parameter has the value that it has in the second. -/
theorem standard_connected {l l' : Listing} (hd : l.design = .ok d) (hd' : l'.design = .ok d')
    (t : Table) (h : d.AlikeBut (standard.parameters ⟨d, t⟩) d') :
    ∃ b, Relation.ReflTransGen standard.Move ⟨d, t⟩ b ∧
      ∀ p s, b.design.setting p = .ok s ↔ d'.setting p = .ok s := by
  have hversion : d.Version (standard.parameters ⟨d, t⟩) d :=
    ⟨Listing.nodup_of_design hd, (Listing.tree_of_design hd).2, (Design.Alike.refl d).alikeBut _⟩
  have hversion' : d.Version (standard.parameters ⟨d, t⟩) d' :=
    ⟨Listing.nodup_of_design hd', (Listing.tree_of_design hd').2, h.symm⟩
  obtain ⟨b₁, hreach₁, hb₁, hone⟩ := exists_not_unrolled (a := ⟨d, t⟩) hversion rfl
  have hps₁ := parameters_of_bare (a := ⟨d, t⟩) (hversion.bare_eq hb₁)
  obtain ⟨b₂, hreach₂, hb₂, hothers⟩ := exists_set_but_unroll hb₁ hversion' hps₁ hone
  have hps₂ := hps₁.trans (parameters_of_bare (hb₁.bare_eq hb₂))
  obtain ⟨b, hreach₃, hb, hvalues⟩ := exists_set_unroll hb₂ hversion' hps₂ hothers
  refine ⟨b, hreach₁.trans (hreach₂.trans hreach₃), fun p s => ?_⟩
  by_cases hp : p ∈ standard.parameters ⟨d, t⟩
  · obtain ⟨s', hs', hset⟩ := hvalues p hp
    rw [hs', hset]
  · exact (hb.alike.trans hversion'.alike.symm).setting_iff hp

end Registry

namespace Smoothing

/-- The loop over the external array, an iteration to a tile. -/
def doubleSingly : Loop := { double with directives := ⟨true, 1, some 1⟩ }

/-- The loop over the array on the chip, completely unrolled. -/
def totalAtOnce : Loop := { total with directives := ⟨false, 16, none⟩ }

/-- The function with other directives and more banks. -/
def rebuiltListing : Listing where
  name := "smoothing"
  records :=
    [⟨⟨0, .func { name := "smoothing", directives := { dataflow := 2 } }, none⟩, none⟩,
     ⟨⟨1, .loop doubleSingly, none⟩, some 0⟩, ⟨⟨2, .block doubleBody, none⟩, some 1⟩,
     ⟨⟨3, .loop totalAtOnce, none⟩, some 0⟩, ⟨⟨4, .block totalBody, none⟩, some 3⟩]
  arrays :=
    [{ name := "x", shape := [16], storage := .external },
     { name := "y", shape := [16], partition := 8 }]

/-- The function with other directives as a tree. -/
def rebuilt : Design where
  name := "smoothing"
  root := ⟨0, .func { name := "smoothing", directives := { dataflow := 2 } }, none⟩
  below :=
    .cons ⟨1, .loop doubleSingly, none⟩ (.cons ⟨2, .block doubleBody, none⟩ .nil .nil)
      (.cons ⟨3, .loop totalAtOnce, none⟩ (.cons ⟨4, .block totalBody, none⟩ .nil .nil) .nil)
  arrays := rebuiltListing.arrays

end Smoothing

namespace Registry

/-- From tiles of eight that are unrolled twice to tiles of one: the tile cannot be set first. -/
theorem standard_connected_smoothing : Smoothing.listing.design = .ok Smoothing.design ∧
    Smoothing.rebuiltListing.design = .ok Smoothing.rebuilt ∧
    ((⟨Smoothing.design, .empty⟩ : Annotated).set (.tile 1) (.factor 1)).1.isOk = false ∧
    ∃ b, Relation.ReflTransGen standard.Move ⟨Smoothing.design, .empty⟩ b ∧
      b.design.setting (.tile 1) = .ok (.factor 1) ∧
      b.design.setting (.unroll 3) = .ok (.factor 16) ∧
      b.design.setting (.partition "y") = .ok (.factor 8) ∧
      b.design.setting (.dataflow 0) = .ok (.factor 2) := by
  have hrebuilt : Smoothing.rebuiltListing.design = .ok Smoothing.rebuilt := by decide +kernel
  obtain ⟨b, hreach, hvalues⟩ := standard_connected Smoothing.design_listing hrebuilt .empty
    ⟨by decide +kernel, by decide +kernel, by decide +kernel, by decide +kernel⟩
  exact ⟨Smoothing.design_listing, hrebuilt, by decide +kernel, b, hreach,
    (hvalues _ _).mpr (by decide +kernel), (hvalues _ _).mpr (by decide +kernel),
    (hvalues _ _).mpr (by decide +kernel), (hvalues _ _).mpr (by decide +kernel)⟩

end Registry

end DesignSpace
