/-
  Subject:   WHICH LISTINGS ARE ACCEPTED, said of the records by themselves: with no tree, no order
             of checks and no error.

  * `Record.Rooted`, `Record.Below`: following parents up to the root, and up to a region;
  * `ArrayDecl.WellFormed`, `Loop.WellFormed`, `Record.WellFormed`: the rules for one entry;
  * `Listing.Treelike`, `Listing.WellFormed`: the rules for a listing;
  * `Listing.exists_tree_iff`: a listing has a tree if its records make one;
  * `Listing.exists_design_iff`: **exactly the well-formed listings are accepted**.
-/
import DesignSpace.Proofs.Design.Records
import DesignSpace.Proofs.Parameter.Admits

namespace DesignSpace

/-! ## 1. Well-formed listings -/

/-- A record from which the parents lead to one that has none. -/
inductive Record.Rooted (all : List Record) : Record → Prop where
  | root {r : Record} (h : r.parent = none) : Rooted all r
  | step {r p : Record} (hp : p ∈ all) (h : r.parent = some p.id) (hr : Rooted all p) :
    Rooted all r

/-- The trip count is a number, and not zero. -/
def Trip.Fixed (t : Trip) (n : Nat) : Prop := t = .static n ∧ 0 < n

/-- The rules for an array. Its scope is the root where none is given. -/
structure ArrayDecl.WellFormed (records : List Record) (a : ArrayDecl) : Prop where
  dimensions : a.shape ≠ []
  extents : ∀ n ∈ a.shape, 0 < n
  width : 0 < a.bits
  banks : 1 ≤ a.partition ∧ ∃ n, a.shape.getLast? = some n ∧ a.partition ∣ n
  scope : ∃ r ∈ records, (a.scope = some r.id ∨ a.scope = none ∧ r.parent = none) ∧
    ((∃ f, r.region.kind = .func f) ∨ r.region.kind = .dataflow)

/-- The rules for the directives of a loop by themselves. A tile that is not given is the trip
    count. -/
structure Loop.WellFormed (l : Loop) : Prop where
  unroll : 1 ≤ l.directives.unroll
  fixed : ∀ n, l.trip.Fixed n → 1 ≤ l.directives.tile.getD n ∧ l.directives.tile.getD n ∣ n ∧
    l.directives.unroll ∣ l.directives.tile.getD n
  unbounded : (¬ ∃ n, l.trip.Fixed n) → l.directives.unroll = 1 ∧ l.directives.tile = none

/-- The rules for a record of a listing. -/
structure Record.WellFormed (l : Listing) (r : Record) : Prop where
  accesses : ∀ b, r.region.kind = .block b → ∀ x ∈ b.accesses,
    ∃ a ∈ l.arrays, a.name = x.array ∧ x.index.length = a.shape.length
  directives : ∀ lp, r.region.kind = .loop lp → lp.WellFormed
  nest : ∀ lp, r.region.kind = .loop lp → lp.directives.pipeline = true →
    ∀ q ∈ l.records, Record.Below l.records r.id q →
      ∀ lq, q.region.kind = .loop lq → ∃ n, lq.trip.Fixed n
  stages : ∀ f, r.region.kind = .func f → 1 ≤ f.directives.dataflow ∧
    f.directives.dataflow ≤ max 1 (Record.childrenOf l.records r.id).length

namespace Listing

/-- The rules for the tree: distinct numbers, one record without a parent, parents that are there,
    and all parents lead to the root. -/
structure Treelike (l : Listing) : Prop where
  distinct : (l.records.map Record.id).Nodup
  oneRoot : ∃ root, l.records.filter (fun r => r.parent.isNone) = [root]
  parents : ∀ r ∈ l.records, ∀ p, r.parent = some p → ∃ q ∈ l.records, q.id = p
  rooted : ∀ r ∈ l.records, Record.Rooted l.records r

/-- The rules for a listing. -/
structure WellFormed (l : Listing) : Prop where
  treelike : l.Treelike
  leaves : ∀ r ∈ l.records, ∀ q ∈ l.records, q.parent = some r.id → ∀ b, r.region.kind ≠ .block b
  names : (l.arrays.map ArrayDecl.name).Nodup
  arrays : ∀ a ∈ l.arrays, a.WellFormed l.records
  records : ∀ r ∈ l.records, r.WellFormed l

end Listing

/-! ## 2. Lines up to the root -/

namespace Record

variable {all : List Record} {r root : Record}

/-- Where the parents lead to the root, they make a line. -/
theorem exists_line_of_rooted (hroot : all.filter (fun r => r.parent.isNone) = [root])
    (hr : r ∈ all) (h : Rooted all r) : ∃ l, Line all root (r.id :: l) := by
  induction h with
  | @root r hnone =>
      have hmem : r ∈ all.filter fun r => r.parent.isNone :=
        List.mem_filter.mpr ⟨hr, by rw [hnone]; rfl⟩
      rw [hroot, List.mem_singleton] at hmem
      exact ⟨[], hmem ▸ .root⟩
  | @step r p hp hparent _ ih =>
      obtain ⟨l, hl⟩ := ih hp
      exact ⟨p.id :: l, .step hr hparent hl⟩

end Record

namespace Listing

variable {l : Listing} {d : Design} {root : Record} {x : RegionId} {k : List RegionId}

/-- **A line leads into the tree**: at its end stands a nest that has the levels left which the
    line does not use up. -/
theorem exists_nest_of_line (h : Record.Line l.records root (x :: k))
    (hk : k.length ≤ l.records.length) : ∃ n ∈ (l.treeAt root).forest.nests, n.region.id = x ∧
      n.below = Record.forest l.records (l.records.length - k.length)
        (Record.childrenOf l.records x) := by
  generalize hline : x :: k = line at h
  induction h generalizing x k with
  | root =>
      obtain ⟨rfl, rfl⟩ := List.cons.inj hline
      exact ⟨(l.treeAt root).top, List.mem_cons_self, rfl, rfl⟩
  | @step r p rest hr hp _ ih =>
      obtain ⟨rfl, rfl⟩ := List.cons.inj hline
      rw [List.length_cons] at hk ⊢
      obtain ⟨n, hn, rfl, hbelow⟩ := ih (by omega) rfl
      have hlevels : l.records.length - rest.length =
          l.records.length - (rest.length + 1) + 1 := by omega
      refine ⟨⟨r.region, _⟩, Forest.nests_below_subset hn _ (Forest.roots_subset_nests _ _ ?_),
        rfl, rfl⟩
      rw [hbelow, hlevels, Record.forest_roots]
      exact List.mem_map_of_mem (Record.mem_childrenOf.mpr ⟨hr, hp⟩)

/-- **What hangs on the root** is what is rooted, and stands in the tree from the root on. -/
theorem mem_preorder_treeAt_iff (hall : (l.records.map Record.id).Nodup)
    (hfilter : l.records.filter (fun r => r.parent.isNone) = [root]) :
    x ∈ (l.treeAt root).preorder ↔
      ∃ r ∈ l.records, r.id = x ∧ Record.Rooted l.records r := by
  obtain ⟨hroot, hnone⟩ := root_of_filter hfilter
  constructor
  · intro hx
    have hids : (l.treeAt root).listing.records.map Record.id = (l.treeAt root).preorder :=
      Forest.map_id_records none _
    obtain ⟨r, hr, hid⟩ := List.mem_map.mp (hids ▸ hx)
    have hsub := mem_of_mem_treeAt hroot hnone
    refine ⟨r, hsub r hr, hid, ?_⟩
    exact Forest.records_induction hsub (fun q _ hq => .root hq)
      (fun q _ p hp hparent hrooted => .step hp hparent hrooted) r hr
  · intro h
    obtain ⟨r, hr, rfl, hrooted⟩ := h
    obtain ⟨k, hk⟩ := Record.exists_line_of_rooted hfilter hr hrooted
    have hlength := Record.line_length_le hall hroot hnone hk
    rw [List.length_cons] at hlength
    obtain ⟨n, hn, hid, -⟩ := exists_nest_of_line hk (by omega)
    exact Forest.mem_ids_iff.mpr ⟨n, hn, hid⟩

/-- **A listing has a tree** if its records make one. -/
theorem exists_tree_iff : (∃ d, l.tree = .ok d) ↔ l.Treelike := by
  constructor
  · intro h
    obtain ⟨d, hd⟩ := h
    obtain ⟨hall, hknown, root, hfilter, rfl, hreached⟩ := tree_eq_ok_iff.mp hd
    refine ⟨hall, ⟨root, hfilter⟩, fun r hr p hp => ?_, fun r hr => ?_⟩
    · exact List.mem_map.mp (hknown r hr p hp)
    · obtain ⟨q, hq, hid, hrooted⟩ := (mem_preorder_treeAt_iff hall hfilter).mp (hreached r hr)
      exact Record.eq_of_id_eq hall hq hr hid ▸ hrooted
  · intro h
    obtain ⟨hall, ⟨root, hfilter⟩, hknown, hrooted⟩ := h
    refine ⟨l.treeAt root, tree_eq_ok_iff.mpr ⟨hall, fun r hr p hp => ?_, root, hfilter, rfl, ?_⟩⟩
    · exact List.mem_map.mpr (hknown r hr p hp)
    · exact fun r hr => (mem_preorder_treeAt_iff hall hfilter).mpr ⟨r, hr, rfl, hrooted r hr⟩

/-! ## 3. Nests and records -/

variable {n : Nest} {q : Record}

theorem exists_record_of_nest (h : l.tree = .ok d) (hn : n ∈ d.forest.nests) :
    ∃ q ∈ l.records, q.region = n.region := by
  have hregion : n.region ∈ d.forest.regions := List.mem_map_of_mem hn
  rw [← Forest.map_region_records none] at hregion
  obtain ⟨q, hq, heq⟩ := List.mem_map.mp hregion
  exact ⟨q, (perm_of_tree h).mem_iff.mp hq, heq⟩

theorem exists_nest_of_record (h : l.tree = .ok d) (hq : q ∈ l.records) :
    ∃ n ∈ d.forest.nests, n.region = q.region := by
  have hregion : q.region ∈ d.forest.regions := by
    rw [← Forest.map_region_records none]
    exact List.mem_map_of_mem ((perm_of_tree h).mem_iff.mpr hq)
  exact List.mem_map.mp hregion

/-- A nest has as many parts as the listing has records under its region. -/
theorem length_children_of_nest (h : l.tree = .ok d) (hn : n ∈ d.forest.nests) :
    n.children.length = (Record.childrenOf l.records n.region.id).length := by
  have hd := nodup_of_tree h
  obtain ⟨m, hm⟩ := Forest.exists_find?_of_mem_ids (Forest.mem_ids_of_mem_nests hn)
  have hmn : m = n := Forest.eq_of_id_eq hd (Forest.find?_mem hm).1 hn (Forest.find?_mem hm).2
  rw [← childrenOf_of_tree h, Design.listing, Forest.childrenOf_records hd (by simp) hm, hmn]
  exact (List.length_map _).symm

theorem mem_below_of_nest_iff (h : l.tree = .ok d) (hn : n ∈ d.forest.nests) {r : Region} :
    r ∈ n.below.regions ↔
      ∃ q ∈ l.records, q.region = r ∧ Record.Below l.records n.region.id q := by
  have hperm := perm_of_tree h
  have hbelow : ∀ {rs rs' : List Record}, (∀ q ∈ rs, q ∈ rs') → ∀ {q},
      Record.Below rs n.region.id q → Record.Below rs' n.region.id q := by
    intro rs rs' hsub q hq
    induction hq with
    | part hparent => exact .part hparent
    | step hr hparent _ ih => exact .step (hsub _ hr) hparent ih
  refine (Forest.mem_below_iff (p := none) (nodup_of_tree h) (by simp) hn).trans
    ⟨fun hr => ?_, fun hr => ?_⟩
  · obtain ⟨q, hq, heq, hb⟩ := hr
    exact ⟨q, hperm.mem_iff.mp hq, heq, hbelow (fun q hq => hperm.mem_iff.mp hq) hb⟩
  · obtain ⟨q, hq, heq, hb⟩ := hr
    exact ⟨q, hperm.mem_iff.mpr hq, heq, hbelow (fun q hq => hperm.mem_iff.mpr hq) hb⟩

end Listing

/-! ## 4. One rule after the other -/

theorem Trip.fixed_iff {t : Trip} {n : Nat} : t.Fixed n ↔ t.bounded = some n := by
  cases t with
  | symbolic _ => exact iff_of_false (fun h => nomatch h.1) nofun
  | static m =>
      unfold Fixed bounded
      by_cases hm : 0 < m
      · simp only [hm, if_true, Option.some.injEq, static.injEq]
        exact ⟨fun h => h.1, fun h => ⟨h, h ▸ hm⟩⟩
      · simp only [hm, if_false, static.injEq]
        exact iff_of_false (fun h => hm (h.1 ▸ h.2)) nofun

/-- The check of a loop asks for its rules, and for what is below it if it is pipelined. -/
theorem Loop.check_iff_wellFormed {l : Loop} {innerStatic : Bool} :
    l.check innerStatic = .ok () ↔
      l.WellFormed ∧ (l.directives.pipeline = true → innerStatic = true) := by
  rw [check_eq_ok_iff]
  cases hb : l.trip.bounded with
  | none =>
      have hno : ¬ ∃ n, l.trip.Fixed n := by
        intro h
        obtain ⟨n, hn⟩ := h
        rw [Trip.fixed_iff, hb] at hn
        cases hn
      constructor
      · intro h
        obtain ⟨hu, hp, hle, htile⟩ := h
        refine ⟨⟨by omega, fun n hn => absurd ⟨n, hn⟩ hno, fun _ => ⟨by omega, htile⟩⟩, hp⟩
      · intro h
        obtain ⟨hl, hp⟩ := h
        obtain ⟨hu, htile⟩ := hl.unbounded hno
        exact ⟨by omega, hp, by omega, htile⟩
  | some trip =>
      have hfixed : l.trip.Fixed trip := Trip.fixed_iff.mpr hb
      constructor
      · intro h
        obtain ⟨hu, hp, ht, htrip, hunroll⟩ := h
        refine ⟨⟨by omega, fun n hn => ?_, fun hno => absurd ⟨trip, hfixed⟩ hno⟩, hp⟩
        obtain rfl : trip = n := by
          rw [Trip.fixed_iff, hb] at hn
          exact Option.some.inj hn
        exact ⟨by omega, htrip, hunroll⟩
      · intro h
        obtain ⟨hl, hp⟩ := h
        obtain ⟨ht, htrip, hunroll⟩ := hl.fixed trip hfixed
        have hu := hl.unroll
        exact ⟨by omega, hp, by omega, htrip, hunroll⟩

theorem Nest.innerLoopsStatic_iff {n : Nest} : n.innerLoopsStatic = true ↔
    ∀ r ∈ n.below.regions, ∀ l, r.kind = .loop l → ∃ k, l.trip.Fixed k := by
  have hloops : ∀ l, l ∈ n.below.loops ↔ ∃ r ∈ n.below.regions, r.kind = .loop l := by
    intro l
    rw [Forest.loops, List.mem_filterMap]
    refine exists_congr fun r => and_congr_right fun _ => ?_
    unfold Region.loop?
    cases r.kind <;> simp
  rw [innerLoopsStatic, List.all_eq_true]
  constructor
  · intro h r hr l hl
    obtain ⟨k, hk⟩ := Option.isSome_iff_exists.mp (h l ((hloops l).mpr ⟨r, hr, hl⟩))
    exact ⟨k, Trip.fixed_iff.mpr hk⟩
  · intro h l hl
    obtain ⟨r, hr, hk⟩ := (hloops l).mp hl
    obtain ⟨k, hfixed⟩ := h r hr l hk
    exact Option.isSome_iff_exists.mpr ⟨k, Trip.fixed_iff.mp hfixed⟩

/-- Nothing is below a block. -/
def Forest.Leafy (f : Forest) : Prop :=
  ∀ n ∈ f.nests, n.region.block?.isSome → n.below = .nil

namespace Forest.Leafy

variable {r : Region} {below after : Forest}

theorem leaf (h : (cons r below after).Leafy) (hr : r.block?.isSome) : below = .nil :=
  h ⟨r, below⟩ List.mem_cons_self hr

theorem ofBelow (h : (cons r below after).Leafy) : below.Leafy := fun n hn =>
  h n (List.mem_cons_of_mem _ (List.mem_append_left _ hn))

theorem ofAfter (h : (cons r below after).Leafy) : after.Leafy := fun n hn =>
  h n (List.mem_cons_of_mem _ (List.mem_append_right _ hn))

theorem ofNest {f : Forest} {n : Nest} (h : f.Leafy) (hn : n ∈ f.nests) : n.below.Leafy :=
  fun m hm => h m (nests_below_subset hn m hm)

end Forest.Leafy

namespace Design

variable {d : Design} {n : Nest} {b : Block} {id : RegionId} {x : Access}

theorem checkNest_block_iff (hk : n.region.kind = .block b) : d.checkNest n = .ok () ↔
    n.children = [] ∧ ∀ x ∈ b.accesses, d.checkAccess n.region.id x = .ok () := by
  unfold checkNest
  simp only [hk]
  rw [demand_bind_eq_ok_iff, List.isEmpty_iff, Attempt.forM_eq_ok_iff]

/-- The forest of a design that keeps the rules has nothing below its blocks. -/
theorem leafy_of_check (hc : d.check = .ok ()) : d.forest.Leafy := by
  intro n hn hblock
  have hnest := (check_eq_ok_iff.mp hc).2.2 n hn
  cases hk : n.region.kind with
  | block b =>
      have hnil := (checkNest_block_iff hk).mp hnest
      have hroots : n.below.roots = [] := hnil.1
      cases hb : n.below with
      | nil => rfl
      | cons r below after => rw [hb] at hroots; cases hroots
  | loop l => rw [Region.block?, hk] at hblock; cases hblock
  | func f => rw [Region.block?, hk] at hblock; cases hblock
  | dataflow => rw [Region.block?, hk] at hblock; cases hblock

/-- Where names are distinct, an access is right if an array of its name has its rank. -/
theorem checkAccess_eq_ok_iff (hnames : (d.arrays.map ArrayDecl.name).Nodup) :
    d.checkAccess id x = .ok () ↔
      ∃ a ∈ d.arrays, a.name = x.array ∧ x.index.length = a.shape.length := by
  unfold checkAccess
  cases ha : d.array? x.array with
  | none =>
      have hnone := List.find?_eq_none.mp ha
      refine iff_of_false nofun fun h => ?_
      obtain ⟨a, hmem, hname, -⟩ := h
      exact hnone a hmem (decide_eq_true hname)
  | some decl =>
      have hdecl : decl ∈ d.arrays := List.mem_of_find?_eq_some ha
      have hdname : decl.name = x.array := by simpa using List.find?_some ha
      refine demand_eq_ok_iff.trans (beq_iff_eq.trans ⟨fun h => ?_, fun h => ?_⟩)
      · exact ⟨decl, hdecl, hdname, h.symm⟩
      · obtain ⟨a, hmem, hname, hrank⟩ := h
        rw [List.inj_on_of_nodup_map hnames hdecl hmem (hdname.trans hname.symm)]
        exact hrank.symm

end Design

theorem Kind.isScope_iff {k : Kind} :
    k.isScope = true ↔ (∃ f, k = .func f) ∨ k = .dataflow := by
  cases k <;> simp [isScope]

namespace Record

variable {l : Listing} {r : Record}

/-! Of the rules for a record, those for another kind of region ask nothing. -/

theorem wellFormed_block_iff {b : Block} (hk : r.region.kind = .block b) : r.WellFormed l ↔
    ∀ x ∈ b.accesses, ∃ a ∈ l.arrays, a.name = x.array ∧ x.index.length = a.shape.length := by
  refine ⟨fun h => h.accesses b hk, fun h => ⟨fun b' hk' => ?_, ?_, ?_, ?_⟩⟩
  case refine_1 => exact Kind.block.inj (hk.symm.trans hk') ▸ h
  all_goals exact fun _ hk' => nomatch hk.symm.trans hk'

theorem wellFormed_loop_iff {lp : Loop} (hk : r.region.kind = .loop lp) : r.WellFormed l ↔
    lp.WellFormed ∧ (lp.directives.pipeline = true →
      ∀ q ∈ l.records, Record.Below l.records r.id q →
        ∀ lq, q.region.kind = .loop lq → ∃ n, lq.trip.Fixed n) := by
  refine ⟨fun h => ⟨h.directives lp hk, h.nest lp hk⟩, fun h => ⟨?_, fun lp' hk' => ?_,
    fun lp' hk' => ?_, ?_⟩⟩
  case refine_2 => exact Kind.loop.inj (hk.symm.trans hk') ▸ h.1
  case refine_3 => exact Kind.loop.inj (hk.symm.trans hk') ▸ h.2
  all_goals exact fun _ hk' => nomatch hk.symm.trans hk'

theorem wellFormed_func_iff {f : Func} (hk : r.region.kind = .func f) : r.WellFormed l ↔
    1 ≤ f.directives.dataflow ∧
      f.directives.dataflow ≤ max 1 (Record.childrenOf l.records r.id).length := by
  refine ⟨fun h => h.stages f hk, fun h => ⟨?_, ?_, ?_, fun f' hk' => ?_⟩⟩
  case refine_4 => exact Kind.func.inj (hk.symm.trans hk') ▸ h
  all_goals exact fun _ hk' => nomatch hk.symm.trans hk'

theorem wellFormed_dataflow (hk : r.region.kind = .dataflow) : r.WellFormed l := by
  refine ⟨?_, ?_, ?_, ?_⟩
  all_goals exact fun _ hk' => nomatch hk.symm.trans hk'

end Record

namespace Listing

variable {l : Listing} {d : Design} {n : Nest} {q : Record} {a : ArrayDecl}

/-- The root of the tree is the record without a parent. -/
theorem root_of_tree (h : l.tree = .ok d) (hq : q ∈ l.records) :
    q.parent = none ↔ q.id = d.root.id := by
  obtain ⟨hall, -, root, hfilter, rfl, -⟩ := tree_eq_ok_iff.mp h
  obtain ⟨hroot, hnone⟩ := root_of_filter hfilter
  constructor
  · intro hparent
    have hmem : q ∈ l.records.filter fun r => r.parent.isNone :=
      List.mem_filter.mpr ⟨hq, by rw [hparent]; rfl⟩
    rw [hfilter, List.mem_singleton] at hmem
    exact congrArg Record.id hmem
  · intro hid
    rw [Record.eq_of_id_eq hall hq hroot hid]
    exact hnone

theorem checkScope_iff (h : l.tree = .ok d) : d.checkScope a = .ok () ↔
    ∃ r ∈ l.records, (a.scope = some r.id ∨ a.scope = none ∧ r.parent = none) ∧
      ((∃ f, r.region.kind = .func f) ∨ r.region.kind = .dataflow) := by
  have hscope : ∀ r ∈ l.records,
      (a.scope = some r.id ∨ a.scope = none ∧ r.parent = none) ↔ d.scopeOf a = r.id := by
    intro r hr
    rw [root_of_tree h hr, Design.scopeOf]
    cases a.scope <;> simp [eq_comm]
  unfold Design.checkScope
  cases hn : d.find? (d.scopeOf a) with
  | none =>
      refine iff_of_false (fun hr => by cases hr) fun hr => ?_
      obtain ⟨r, hr, hs, -⟩ := hr
      obtain ⟨m, hm, hregion⟩ := exists_nest_of_record h hr
      refine Forest.find?_eq_none_iff.mp hn (Forest.mem_ids_iff.mpr ⟨m, hm, ?_⟩)
      exact (congrArg Region.id hregion).trans ((hscope r hr).mp hs).symm
  | some m =>
      obtain ⟨hm, hid⟩ := Forest.find?_mem hn
      refine (demand_eq_ok_iff.trans Kind.isScope_iff).trans ⟨fun hk => ?_, fun hr => ?_⟩
      · obtain ⟨r, hr, hregion⟩ := exists_record_of_nest h hm
        rw [← hregion] at hk
        exact ⟨r, hr, (hscope r hr).mpr (hid.symm.trans (congrArg Region.id hregion.symm)), hk⟩
      · obtain ⟨r, hr, hs, hk⟩ := hr
        obtain ⟨m', hm', hregion⟩ := exists_nest_of_record h hr
        have hsame : m = m' := Forest.eq_of_id_eq (nodup_of_tree h) hm hm'
          ((hid.trans ((hscope r hr).mp hs)).trans (congrArg Region.id hregion.symm))
        rw [hsame, hregion]
        exact hk

theorem checkArray_iff (h : l.tree = .ok d) :
    a.check = .ok () ∧ d.checkScope a = .ok () ↔ a.WellFormed l.records := by
  rw [ArrayDecl.check_eq_ok_iff, checkScope_iff h]
  have hlast : ∀ hne : a.shape ≠ [], a.shape.getLast? = some a.lastExtent := by
    intro hne
    rw [ArrayDecl.lastExtent, List.getLast?_eq_some_getLast hne]
    rfl
  constructor
  · intro hc
    obtain ⟨⟨⟨hne, hext⟩, hbits, hpos, hmod⟩, hscope⟩ := hc
    exact ⟨hne, hext, hbits, ⟨hpos, _, hlast hne, Nat.dvd_of_mod_eq_zero hmod⟩, hscope⟩
  · intro hw
    obtain ⟨hpos, n, hn, hdvd⟩ := hw.banks
    rw [hlast hw.dimensions] at hn
    obtain rfl := Option.some.inj hn
    exact ⟨⟨⟨hw.dimensions, hw.extents⟩, hw.width, hpos, Nat.mod_eq_zero_of_dvd hdvd⟩, hw.scope⟩

/-- **The check of a nest** asks for the rules of its record, and of a block that nothing is under
    it. -/
theorem checkNest_iff (h : l.tree = .ok d) (hnames : (l.arrays.map ArrayDecl.name).Nodup)
    (hn : n ∈ d.forest.nests) (hq : q.region = n.region) :
    d.checkNest n = .ok () ↔
      q.WellFormed l ∧ ∀ b, q.region.kind = .block b → Record.childrenOf l.records q.id = [] := by
  have hid : q.id = n.region.id := congrArg Region.id hq
  have hlength := length_children_of_nest h hn
  have harrays := arrays_of_tree h
  cases hk : n.region.kind with
  | block b =>
      have hkq : q.region.kind = .block b := by rw [hq, hk]
      have hparts : n.children = [] ↔ Record.childrenOf l.records q.id = [] := by
        rw [← List.length_eq_zero_iff, hlength, hid, List.length_eq_zero_iff]
      rw [Design.checkNest_block_iff hk, Record.wellFormed_block_iff hkq, hparts, and_comm]
      simp only [Design.checkAccess_eq_ok_iff (harrays ▸ hnames), harrays]
      exact and_congr_right fun _ => ⟨fun hnil _ _ => hnil, fun hleaf => hleaf b hkq⟩
  | loop lp =>
      have hkq : q.region.kind = .loop lp := by rw [hq, hk]
      have hnest : n.innerLoopsStatic = true ↔
          ∀ q' ∈ l.records, Record.Below l.records q.id q' →
            ∀ lq, q'.region.kind = .loop lq → ∃ k, lq.trip.Fixed k := by
        rw [Nest.innerLoopsStatic_iff, hid]
        constructor
        · intro hs q' hq' hb
          exact hs q'.region ((mem_below_of_nest_iff h hn).mpr ⟨q', hq', rfl, hb⟩)
        · intro hs r hr
          obtain ⟨q', hq', rfl, hb⟩ := (mem_below_of_nest_iff h hn).mp hr
          exact hs q' hq' hb
      rw [Design.checkNest_loop_iff hk, Loop.check_iff_wellFormed, hnest,
        Record.wellFormed_loop_iff hkq, hkq]
      exact (and_iff_left nofun).symm
  | func f =>
      have hkq : q.region.kind = .func f := by rw [hq, hk]
      rw [Design.checkNest_func_iff hk, hlength, Nat.max_comm, ← hid,
        Record.wellFormed_func_iff hkq, hkq]
      exact (and_iff_left nofun).symm
  | dataflow =>
      have hkq : q.region.kind = .dataflow := by rw [hq, hk]
      have hok : d.checkNest n = .ok () := by
        unfold Design.checkNest
        simp only [hk]
      rw [hkq]
      exact iff_of_true hok ⟨Record.wellFormed_dataflow hkq, nofun⟩

/-! ## 5. All rules -/

/-- **Exactly the well-formed listings are accepted.** -/
theorem exists_design_iff : (∃ d, l.design = .ok d) ↔ l.WellFormed := by
  constructor
  · intro h
    obtain ⟨d, hd⟩ := h
    obtain ⟨htree, hc⟩ := tree_of_design hd
    obtain ⟨hnames, harrays, hnests⟩ := Design.check_eq_ok_iff.mp hc
    rw [arrays_of_tree htree] at hnames harrays
    have hrecords : ∀ r ∈ l.records, r.WellFormed l ∧
        ∀ b, r.region.kind = .block b → Record.childrenOf l.records r.id = [] := by
      intro r hr
      obtain ⟨n, hn, hregion⟩ := exists_nest_of_record htree hr
      exact (checkNest_iff htree hnames hn hregion.symm).mp (hnests n hn)
    refine ⟨exists_tree_iff.mp ⟨d, htree⟩, fun r hr q hq hparent b hk => ?_, hnames,
      fun a ha => (checkArray_iff htree).mp (harrays a ha), fun r hr => (hrecords r hr).1⟩
    have hmem : q ∈ Record.childrenOf l.records r.id := Record.mem_childrenOf.mpr ⟨hq, hparent⟩
    rw [(hrecords r hr).2 b hk] at hmem
    exact absurd hmem List.not_mem_nil
  · intro h
    obtain ⟨d, htree⟩ := exists_tree_iff.mpr h.treelike
    have hsame := arrays_of_tree htree
    have hc : d.check = .ok () := by
      refine Design.check_eq_ok_iff.mpr ⟨hsame ▸ h.names, fun a ha => ?_, fun n hn => ?_⟩
      · exact (checkArray_iff htree).mpr (h.arrays a (hsame ▸ ha))
      · obtain ⟨q, hq, hregion⟩ := exists_record_of_nest htree hn
        refine (checkNest_iff htree h.names hn hregion).mpr ⟨h.records q hq, fun b hk => ?_⟩
        refine List.eq_nil_iff_forall_not_mem.mpr fun c hc => ?_
        obtain ⟨hmem, hparent⟩ := Record.mem_childrenOf.mp hc
        exact h.leaves q hq c hmem hparent b hk
    refine ⟨d, Attempt.bind_eq_ok_iff.mpr ⟨d, htree, ?_⟩⟩
    exact Attempt.bind_eq_ok_iff.mpr ⟨(), hc, rfl⟩

end Listing

end DesignSpace
