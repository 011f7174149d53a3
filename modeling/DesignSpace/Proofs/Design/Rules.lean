/-
  Subject:   THE RULES OF A DESIGN as one statement about its arrays and its nests, and what a
             single change asks of them.

  * `Design.check_eq_ok_iff`: what a design that is accepted looks like;
  * `Loop.check_eq_ok_iff`: tiles divide trip counts, unroll factors divide tiles;
  * `Design.check_updateRegion`, `check_updateArray`: **after a change only what was changed has to
    be looked at**;
  * `Design.Alike.check`: tiles as long as the loop break no rule.
-/
import DesignSpace.Proofs.Parameter.Write

namespace DesignSpace

variable {d d' : Design} {id : RegionId} {n : Nest} {name : String}

namespace Design

/-! ## 1. All rules -/

theorem checkArrays_eq_ok_iff {before : List String} {as : List ArrayDecl} :
    d.checkArrays before as = .ok () ↔
      (as.map ArrayDecl.name).Nodup ∧ (∀ a ∈ as, a.name ∉ before) ∧
        ∀ a ∈ as, a.check = .ok () ∧ d.checkScope a = .ok () := by
  induction as generalizing before with
  | nil => simp [checkArrays]
  | cons a as ih =>
      rw [checkArrays, demand_bind_eq_ok_iff, Attempt.bind_eq_ok_iff, List.map_cons,
        List.nodup_cons, List.forall_mem_cons, List.forall_mem_cons]
      simp only [Attempt.bind_eq_ok_iff, Attempt.mapError_eq_ok_iff, ih]
      have hbefore : (!before.contains a.name) = true ↔ a.name ∉ before := by simp
      rw [hbefore]
      constructor
      · rintro ⟨ha, ⟨⟩, hc, ⟨⟩, hs, hnodup, hb, hrest⟩
        refine ⟨⟨?_, hnodup⟩, ⟨ha, fun x hx hm => hb x hx (List.mem_cons_of_mem _ hm)⟩, ⟨hc, hs⟩,
          hrest⟩
        intro hmem
        obtain ⟨x, hx, hname⟩ := List.mem_map.mp hmem
        exact hb x hx (List.mem_cons.mpr (.inl hname))
      · rintro ⟨⟨hfirst, hnodup⟩, ⟨ha, hb⟩, ⟨hc, hs⟩, hrest⟩
        refine ⟨ha, (), hc, (), hs, hnodup, fun x hx hm => ?_, hrest⟩
        rcases List.mem_cons.mp hm with hname | hm
        · exact hfirst (hname ▸ List.mem_map_of_mem hx)
        · exact hb x hx hm

/-- **A design that is accepted**: its arrays have different names and keep their rules, and all its
    nests keep theirs. -/
theorem check_eq_ok_iff :
    d.check = .ok () ↔ (d.arrays.map ArrayDecl.name).Nodup ∧
      (∀ a ∈ d.arrays, a.check = .ok () ∧ d.checkScope a = .ok ()) ∧
        ∀ n ∈ d.forest.nests, d.checkNest n = .ok () := by
  rw [check, Attempt.bind_eq_ok_iff]
  constructor
  · rintro ⟨⟨⟩, harrays, hnests⟩
    obtain ⟨hnodup, -, ha⟩ := checkArrays_eq_ok_iff.mp harrays
    exact ⟨hnodup, ha, fun n hn => Attempt.forM_eq_ok_iff.mp hnests n (mem_arranged.mpr hn)⟩
  · rintro ⟨hnodup, ha, hn⟩
    refine ⟨(), checkArrays_eq_ok_iff.mpr ⟨hnodup, fun _ _ => List.not_mem_nil, ha⟩, ?_⟩
    exact Attempt.forM_eq_ok_iff.mpr fun n hmem => hn n (mem_arranged.mp hmem)

/-- The scope of an array is a region of the design, and one that arrays may have as their scope. -/
theorem scope_of_check (hc : d.check = .ok ()) {a : ArrayDecl} (ha : a ∈ d.arrays) :
    ∃ n, d.find? (d.scopeOf a) = some n ∧ n.region.kind.isScope = true := by
  have hscope := ((check_eq_ok_iff.mp hc).2.1 a ha).2
  unfold checkScope at hscope
  cases hn : d.find? (d.scopeOf a) with
  | none => rw [hn] at hscope; cases hscope
  | some n =>
      rw [hn] at hscope
      exact ⟨n, rfl, demand_eq_ok_iff.mp hscope⟩

end Design

/-- **The rules for a loop.** -/
theorem Loop.check_eq_ok_iff {l : Loop} {innerStatic : Bool} :
    l.check innerStatic = .ok () ↔ l.directives.unroll ≠ 0 ∧
      (l.directives.pipeline = true → innerStatic = true) ∧
        match l.trip.bounded with
        | some trip => l.directives.tile.getD trip ≠ 0 ∧ l.directives.tile.getD trip ∣ trip ∧
            l.directives.unroll ∣ l.directives.tile.getD trip
        | none => l.directives.unroll ≤ 1 ∧ l.directives.tile = none := by
  unfold check
  dsimp only
  rw [demand_bind_eq_ok_iff, demand_bind_eq_ok_iff]
  refine and_congr (by simp) (and_congr ?_ ?_)
  · cases l.directives.pipeline <;> simp
  · cases l.trip.bounded with
    | none =>
        show demand _ _ = .ok () ↔ _
        rw [demand_eq_ok_iff]
        simp
    | some trip =>
        show (do demand _ _; demand _ _) = .ok () ↔ _
        rw [demand_bind_eq_ok_iff, demand_eq_ok_iff]
        simp [Nat.dvd_iff_mod_eq_zero, and_assoc]

namespace Design

/-! ## 2. Rules and directives -/

/-- The scope of an array is no matter of directives. -/
theorem checkScope_of_bare (hbare : d'.forest.bare = d.forest.bare) (hroot : d'.root.id = d.root.id)
    {a a' : ArrayDecl} (ha : a'.scope = a.scope) : d'.checkScope a' = d.checkScope a := by
  have hscope : d'.scopeOf a' = d.scopeOf a := by rw [scopeOf, scopeOf, ha, hroot]
  have hfind := find?_of_bare hbare (d.scopeOf a)
  unfold checkScope
  rw [hscope]
  cases hn' : d'.find? (d.scopeOf a) with
  | none =>
      cases hn : d.find? (d.scopeOf a) with
      | none => rfl
      | some n =>
          rw [hn', hn] at hfind
          cases hfind
  | some n' =>
      cases hn : d.find? (d.scopeOf a) with
      | none =>
          rw [hn', hn] at hfind
          cases hfind
      | some n =>
          rw [hn', hn] at hfind
          have hbare : n'.region.bare.kind.isScope = n.region.bare.kind.isScope :=
            congrArg (fun m : Nest => m.region.kind.isScope) (Option.some.inj hfind)
          have hkind : n'.region.kind.isScope = n.region.kind.isScope :=
            n'.region.isScope_bare.symm.trans (hbare.trans n.region.isScope_bare)
          exact congrArg (fun b => demand b ScopeFlaw.kind) hkind

/-- Of the array table, the rules for a nest ask for the ranks only. -/
theorem checkNest_congr (h : ∀ x, (d'.array? x).map (fun a => a.shape) =
    (d.array? x).map fun a => a.shape) (n : Nest) : d'.checkNest n = d.checkNest n := by
  have haccess : d'.checkAccess n.region.id = d.checkAccess n.region.id := by
    funext x
    have hx := h x.array
    unfold checkAccess
    cases ha' : d'.array? x.array with
    | none =>
        cases ha : d.array? x.array with
        | none => rfl
        | some a =>
            rw [ha', ha] at hx
            cases hx
    | some a' =>
        cases ha : d.array? x.array with
        | none =>
            rw [ha', ha] at hx
            cases hx
        | some a =>
            rw [ha', ha] at hx
            have hshape : a'.shape = a.shape := Option.some.inj hx
            show demand _ _ = demand _ _
            rw [hshape]
  unfold checkNest
  simp only [haccess]

/-- The rules for a nest ask nothing of the directives below it. -/
theorem checkNest_map {g : Region → Region} (hg : Directing g) (n : Nest) :
    d.checkNest (n.map g) = d.checkNest ⟨g n.region, n.below⟩ := by
  have hchildren : (n.map g).children.length = (Nest.mk (g n.region) n.below).children.length :=
    Nest.length_children_map n
  have hempty : (n.map g).children.isEmpty = (Nest.mk (g n.region) n.below).children.isEmpty := by
    rw [Bool.eq_iff_iff, List.isEmpty_iff_length_eq_zero, List.isEmpty_iff_length_eq_zero,
      hchildren]
  have hstatic : (n.map g).innerLoopsStatic = (Nest.mk (g n.region) n.below).innerLoopsStatic :=
    Nest.innerLoopsStatic_map hg n
  unfold checkNest
  rw [hchildren, hempty, hstatic]
  rfl

theorem shape_updateArray (d : Design) {change : ArrayDecl → ArrayDecl} (hc : Banking change)
    (x : String) : ((d.updateArray name change).array? x).map (fun a => a.shape) =
      (d.array? x).map fun a => a.shape := by
  have hshape : ∀ a, (change a).shape = a.shape := by
    intro a
    obtain ⟨k, hk⟩ := hc a
    rw [hk]
  rw [array?_updateArray d hc]
  by_cases hx : x = name
  · rw [if_pos hx, Option.map_map]
    congr 1
    funext a
    exact hshape a
  · rw [if_neg hx]

/-! ## 3. One change -/

theorem mem_nests_updateRegion {change : Kind → Kind} {m : Nest} :
    m ∈ (d.updateRegion id change).forest.nests ↔
      ∃ n ∈ d.forest.nests, n.map (Region.alter id change) = m := by
  rw [forest_updateRegion_map, Forest.nests_map, List.mem_map]

/-- **After a change of directives** only the region that was changed has to be looked at. -/
theorem check_updateRegion (hd : d.preorder.Nodup) (hc : d.check = .ok ())
    (hn : d.find? id = some n) {change : Kind → Kind} (hchange : ∀ k, (change k).bare = k.bare) :
    (d.updateRegion id change).check = .ok () ↔
      d.checkNest ⟨{ n.region with kind := change n.region.kind }, n.below⟩ = .ok () := by
  obtain ⟨hnodup, harrays, hnests⟩ := check_eq_ok_iff.mp hc
  obtain ⟨hmem, hid⟩ := Forest.find?_mem hn
  have hg := directing_alter id hchange
  have hnest : ∀ m : Nest, (d.updateRegion id change).checkNest (m.map (Region.alter id change)) =
      d.checkNest ⟨Region.alter id change m.region, m.below⟩ := by
    intro m
    rw [← checkNest_map hg]
    exact checkNest_congr (fun _ => rfl) _
  have hself : Region.alter id change n.region =
      { n.region with kind := change n.region.kind } := if_pos hid
  rw [check_eq_ok_iff]
  constructor
  · rintro ⟨-, -, h⟩
    have := h _ (mem_nests_updateRegion.mpr ⟨n, hmem, rfl⟩)
    rwa [hnest, hself] at this
  · intro h
    refine ⟨hnodup, fun a ha => ⟨(harrays a ha).1, ?_⟩, fun m' hm' => ?_⟩
    · rw [checkScope_of_bare (forest_bare_updateRegion d id hchange)
        (root_id_updateRegion d id change) rfl]
      exact (harrays a ha).2
    · obtain ⟨m, hm, rfl⟩ := mem_nests_updateRegion.mp hm'
      rw [hnest]
      by_cases hmid : m.region.id = id
      · obtain rfl := Forest.eq_of_id_eq hd hm hmem (hmid.trans hid.symm)
        rwa [hself]
      · rw [Region.alter, if_neg hmid]
        exact hnests m hm

theorem mem_update_iff {change : ArrayDecl → ArrayDecl} {arrays : List ArrayDecl} {a x : ArrayDecl}
    (hnodup : (arrays.map ArrayDecl.name).Nodup)
    (ha : arrays.find? (fun y => y.name = name) = some a) :
    x ∈ updateArray.update name change arrays ↔ x = change a ∨ x ∈ arrays ∧ x.name ≠ name := by
  induction arrays with
  | nil => cases ha
  | cons b bs ih =>
      obtain ⟨hfirst, hrest⟩ := List.nodup_cons.mp hnodup
      rw [List.find?_cons] at ha
      unfold updateArray.update
      by_cases hb : b.name = name
      · rw [decide_eq_true hb] at ha
        obtain rfl := Option.some.inj ha
        have hne : x ∈ bs → x.name ≠ name := by
          rintro hx rfl
          exact hfirst (hb ▸ List.mem_map_of_mem hx)
        rw [if_pos hb, List.mem_cons, List.mem_cons]
        constructor
        · rintro (h | h)
          · exact .inl h
          · exact .inr ⟨.inr h, hne h⟩
        · rintro (h | ⟨rfl | h, hx⟩)
          · exact .inl h
          · exact absurd hb hx
          · exact .inr h
      · rw [decide_eq_false hb] at ha
        rw [if_neg hb, List.mem_cons, List.mem_cons, ih hrest ha]
        constructor
        · rintro (rfl | h | ⟨h, hx⟩)
          · exact .inr ⟨.inl rfl, hb⟩
          · exact .inl h
          · exact .inr ⟨.inr h, hx⟩
        · rintro (h | ⟨rfl | h, hx⟩)
          · exact .inr (.inl h)
          · exact .inl rfl
          · exact .inr (.inr ⟨h, hx⟩)

/-- **After a change of banks** only the array that was changed has to be looked at. -/
theorem check_updateArray (hc : d.check = .ok ()) {a : ArrayDecl} (ha : d.array? name = some a)
    {change : ArrayDecl → ArrayDecl} (hchange : Banking change) :
    (d.updateArray name change).check = .ok () ↔ (change a).check = .ok () := by
  obtain ⟨hnodup, harrays, hnests⟩ := check_eq_ok_iff.mp hc
  have hmem : ∀ x, x ∈ (d.updateArray name change).arrays ↔
      x = change a ∨ x ∈ d.arrays ∧ x.name ≠ name := fun x => mem_update_iff hnodup ha
  have hscope : ∀ x x' : ArrayDecl, x'.scope = x.scope →
      (d.updateArray name change).checkScope x' = d.checkScope x := fun x x' hx =>
    checkScope_of_bare rfl rfl hx
  have hkept : (change a).scope = a.scope := by
    obtain ⟨k, hk⟩ := hchange a
    rw [hk]
  rw [check_eq_ok_iff]
  constructor
  · rintro ⟨-, h, -⟩
    exact (h _ ((hmem _).mpr (.inl rfl))).1
  · intro h
    refine ⟨?_, fun x hx => ?_, fun n hn => ?_⟩
    · have hnames : (d.updateArray name change).arrays.map ArrayDecl.name =
          d.arrays.map ArrayDecl.name := map_update hchange.name_eq d.arrays
      rw [hnames]
      exact hnodup
    · rcases (hmem x).mp hx with rfl | ⟨hx, -⟩
      · rw [hscope a _ hkept]
        exact ⟨h, (harrays a (List.mem_of_find?_eq_some ha)).2⟩
      · rw [hscope x x rfl]
        exact harrays x hx
    · rw [checkNest_congr (shape_updateArray d hchange)]
      exact hnests n hn

end Design

/-! ## 4. Tiles as long as the loop -/

theorem Loop.check_plain (l : Loop) (innerStatic : Bool) :
    l.plain.check innerStatic = l.check innerStatic := by
  have htrip : l.plain.trip.bounded = l.trip.bounded := rfl
  have htile : l.plain.directives.tile =
      if l.directives.tile = l.trip.bounded then none else l.directives.tile := rfl
  have hunroll : l.plain.directives.unroll = l.directives.unroll := rfl
  have hpipeline : l.plain.directives.pipeline = l.directives.pipeline := rfl
  unfold check
  rw [htrip, hunroll, hpipeline]
  cases hb : l.trip.bounded with
  | none =>
      have hplain : l.plain.directives.tile = l.directives.tile := by
        rw [htile, hb]
        exact ite_eq_right_iff.mpr Eq.symm
      simp only [hplain]
  | some n =>
      have hplain : l.plain.directives.tile.getD n = l.directives.tile.getD n := by
        rw [htile, hb]
        by_cases ht : l.directives.tile = some n
        · rw [if_pos ht, ht]
          rfl
        · rw [if_neg ht]
      simp only [hplain]

namespace Design

/-- Such a tile breaks no rule, and none in its place breaks none. -/
theorem checkNest_plain (n : Nest) : d.checkNest (n.map Region.plain) = d.checkNest n := by
  rw [checkNest_map directing_plain]
  obtain ⟨⟨i, k, o⟩, below⟩ := n
  cases k with
  | block b => rfl
  | func f => rfl
  | dataflow => rfl
  | loop l =>
      show ((l.plain.check _).mapError _) = (l.check _).mapError _
      rw [l.check_plain]
      rfl

/-- Designs that are alike keep the same rules. -/
theorem Alike.check (h : d.Alike d') (hc : d.check = .ok ()) : d'.check = .ok () := by
  obtain ⟨hnodup, harrays, hnests⟩ := check_eq_ok_iff.mp hc
  have harray : d'.array? = d.array? := by
    funext x
    rw [array?, array?, h.arrays]
  refine check_eq_ok_iff.mpr ⟨h.arrays ▸ hnodup, fun a ha => ?_, fun n' hn' => ?_⟩
  · rw [← h.arrays] at ha
    rw [checkScope_of_bare h.forest_bare_eq h.root.symm rfl]
    exact harrays a ha
  · have hplain : n'.map Region.plain ∈ (d.forest.map Region.plain).nests := by
      rw [h.forest, Forest.nests_map]
      exact List.mem_map_of_mem hn'
    rw [Forest.nests_map] at hplain
    obtain ⟨n, hn, heq⟩ := List.mem_map.mp hplain
    have hcongr : d'.checkNest n = d.checkNest n := checkNest_congr (fun x => by rw [harray]) n
    rw [← checkNest_plain n', ← heq, checkNest_plain, hcongr]
    exact hnests n hn

end Design

end DesignSpace
