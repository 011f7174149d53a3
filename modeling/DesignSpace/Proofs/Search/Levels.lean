/-
  Subject:   THE LEVELS OF A SEARCH, and their order. They are the regions that some operator
             applies to, the inner ones before the outer ones or after them, and otherwise in the
             order of the tree. Changes of parameters leave them as they are.

  * `Annotated.Sets`, `bare_of_sets`: one change after the other, and what they keep;
  * `StandsBefore`: one item of a list before another one;
  * `Registry.mem_preorder_of_applies`: where the standard operators apply;
  * `Explorer.levels_eq`, `mem_levels_iff`, `pairwise_levels`, `filter_levels`: which regions the
    levels are, and how they stand;
  * `Explorer.levels_of_bare`: the levels are a matter of the shape of a design;
  * `Explorer.levels_ordered`: **the levels of the standard operators**.
-/
import Mathlib.Logic.Relation
import DesignSpace.Proofs.Operator.Domain
import DesignSpace.Proofs.Operator.Targets
import DesignSpace.Proofs.Parameter.Stale
import DesignSpace.Search.Level

namespace DesignSpace

open Relation (ReflTransGen)

/-! ## 1. Changes -/

namespace Annotated

variable {a b : Annotated}

/-- One change of a parameter that succeeds. -/
def Sets (a b : Annotated) : Prop := ∃ p s change, a.set p s = (.ok change, b)

theorem Sets.bare_eq (hd : a.design.preorder.Nodup) (h : a.Sets b) :
    b.design.bare = a.design.bare := by
  obtain ⟨p, s, change, hset⟩ := h
  have hbare := bare_set a hd p s
  rwa [hset] at hbare

/-- **Any changes that succeed**, one after the other, leave everything but directives and banks. -/
theorem bare_of_sets (hd : a.design.preorder.Nodup) (h : ReflTransGen Sets a b) :
    b.design.bare = a.design.bare := by
  induction h with
  | refl => rfl
  | tail _ hset ih =>
      have hpreorder := Design.preorder_of_bare (Design.forest_of_bare ih)
      exact (hset.bare_eq (hpreorder ▸ hd)).trans ih

end Annotated

/-! ## 2. Two items of a list -/

/-- One item stands before another one in a list. -/
def StandsBefore {α : Type} (xs : List α) (x y : α) : Prop := [x, y].Sublist xs

instance {α : Type} [DecidableEq α] (xs : List α) (x y : α) : Decidable (StandsBefore xs x y) :=
  inferInstanceAs (Decidable ([x, y].Sublist xs))

namespace StandsBefore

variable {α : Type} {xs : List α} {x y : α}

theorem of_ne (hx : x ∈ xs) (hy : y ∈ xs) (hne : x ≠ y) :
    StandsBefore xs x y ∨ StandsBefore xs y x := by
  unfold StandsBefore
  induction xs with
  | nil => exact absurd hx List.not_mem_nil
  | cons z zs ih =>
      rcases List.mem_cons.mp hx with rfl | hxs
      · have hys : y ∈ zs := (List.mem_cons.mp hy).resolve_left hne.symm
        exact .inl (.cons_cons x (List.singleton_sublist.mpr hys))
      · rcases List.mem_cons.mp hy with rfl | hys
        · exact .inr (.cons_cons y (List.singleton_sublist.mpr hxs))
        · exact (ih hxs hys).imp (.cons z) (.cons z)

/-- Of two items that may stand in one way only, that is how they stand. -/
theorem of_pairwise {R : α → α → Prop} (h : xs.Pairwise R) (hx : x ∈ xs) (hy : y ∈ xs)
    (hne : x ≠ y) (hnot : ¬ R y x) : StandsBefore xs x y :=
  (of_ne hx hy hne).resolve_right fun hyx =>
    hnot (List.pairwise_iff_forall_sublist.mp h hyx)

theorem filter_iff {p : α → Bool} (hx : p x = true) (hy : p y = true) :
    StandsBefore (xs.filter p) x y ↔ StandsBefore xs x y := by
  constructor
  · exact fun h => h.trans List.filter_sublist
  · intro h
    have hfilter := List.Sublist.filter p h
    rwa [List.filter_cons_of_pos hx, List.filter_cons_of_pos hy, List.filter_nil] at hfilter

end StandsBefore

/-! ## 3. Where the standard operators apply -/

namespace Registry

variable {a : Annotated} {level : RegionId} {o : Operator} {p : Parameter}

/-- A standard operator applies where it has a parameter. -/
theorem applies_of_mem_targets (ho : o ∈ standard.operators) (hp : p ∈ o.targets a level) :
    o.applies a level = true := by
  rcases mem_standard_iff.mp ho with rfl | rfl | rfl | rfl | rfl
  case inr.inr.inr.inl =>
    have hmem : p ∈ if partitionOperator.owns a level then
        (a.design.scopedTo level).map fun x => Parameter.partition x.name else [] := hp
    by_cases howns : partitionOperator.owns a level = true
    · exact howns
    · rw [if_neg howns] at hmem
      exact absurd hmem List.not_mem_nil
  all_goals exact (Operator.mem_targets_single hp).1

/-- A standard operator applies to regions of the design only. -/
theorem mem_preorder_of_applies (ho : o ∈ standard.operators) (h : o.applies a level = true) :
    level ∈ a.design.preorder := by
  have hfind : ∃ n, a.design.find? level = some n := by
    rcases mem_standard_iff.mp ho with rfl | rfl | rfl | rfl | rfl
    · obtain ⟨n, -, -, hn, -⟩ := Annotated.isStaticLoop_iff.mp (Bool.and_eq_true_iff.mp h).1
      exact ⟨n, hn⟩
    · obtain ⟨n, -, -, hn, -⟩ := Annotated.isStaticLoop_iff.mp h
      exact ⟨n, hn⟩
    · obtain ⟨n, -, -, hn, -⟩ := Annotated.isStaticLoop_iff.mp h
      exact ⟨n, hn⟩
    · have howns : partitionOperator.owns a level = true := h
      unfold partitionOperator.owns Annotated.find? at howns
      cases hn : a.design.find? level with
      | none => rw [hn] at howns; cases howns
      | some n => exact ⟨n, rfl⟩
    · obtain ⟨n, -, hn, -⟩ := dataflowOperator.exists_func h
      exact ⟨n, hn⟩
  obtain ⟨n, hn⟩ := hfind
  obtain ⟨hmem, rfl⟩ := Forest.find?_mem hn
  exact Forest.mem_ids_of_mem_nests hmem

end Registry

/-! ## 4. The levels of any operators -/

namespace Explorer

variable {x : Explorer} {a b : Annotated} {spec : TargetSpec} {id i j level : RegionId}
  {o : Operator} {p : Parameter}

/-- The regions that some operator applies to, in the order of the tree. -/
def found (x : Explorer) (a : Annotated) : List RegionId :=
  a.design.preorder.filter (x.registry.appliesAnywhere a)

/-- Whether one region may be searched before another one: as the strategy is, if it is not less
    deep, or not deeper. -/
def mayPrecede (x : Explorer) (d : Design) (i j : RegionId) : Bool :=
  match x.spec.options.strategy with
  | .bottomUp => decide (d.depth j ≤ d.depth i)
  | .topDown => decide (d.depth i ≤ d.depth j)

theorem levels_eq (x : Explorer) (a : Annotated) :
    x.levels a = arranged (x.mayPrecede a.design) (x.found a) := by
  unfold levels mayPrecede found
  cases x.spec.options.strategy <;> rfl

theorem mem_levels_iff : id ∈ x.levels a ↔
    id ∈ a.design.preorder ∧ ∃ o ∈ x.registry.operators, o.applies a id = true := by
  rw [levels_eq, mem_arranged, found, List.mem_filter, Registry.appliesAnywhere, List.any_eq_true]

/-- No level comes twice. -/
theorem nodup_levels (hd : a.design.preorder.Nodup) : (x.levels a).Nodup := by
  rw [levels_eq]
  exact (arranged_perm _ _).nodup_iff.mpr (hd.filter _)

theorem pairwise_levels (x : Explorer) (a : Annotated) :
    (x.levels a).Pairwise fun i j => x.mayPrecede a.design i j = true := by
  rw [levels_eq]
  refine pairwise_arranged (fun i j k => ?_) (fun i j => ?_) _
  · unfold mayPrecede
    split <;> simp only [decide_eq_true_eq] <;> omega
  · unfold mayPrecede
    split <;> simp only [Bool.or_eq_true, decide_eq_true_eq] <;> omega

/-- At one depth the levels stand as in the tree. -/
theorem filter_levels (x : Explorer) (a : Annotated) (depth : Nat) :
    (x.levels a).filter (fun i => a.design.depth i = depth) =
      (x.found a).filter fun i => a.design.depth i = depth := by
  rw [levels_eq]
  refine filter_arranged (fun i j hi hj => ?_) _
  have hi := of_decide_eq_true hi
  have hj := of_decide_eq_true hj
  unfold mayPrecede
  split <;> exact decide_eq_true (by omega)

/-- Of two levels of one depth, the one that comes first in the tree stands first. -/
theorem standsBefore_levels_iff (hi : i ∈ x.levels a) (hj : j ∈ x.levels a)
    (hdepth : a.design.depth i = a.design.depth j) :
    StandsBefore (x.levels a) i j ↔ StandsBefore a.design.preorder i j := by
  have happlies : ∀ {k}, k ∈ x.levels a → x.registry.appliesAnywhere a k = true := fun hk =>
    (List.mem_filter.mp (mem_arranged.mp (levels_eq x a ▸ hk) : _ ∈ x.found a)).2
  have hfilter : ∀ ks : List RegionId,
      StandsBefore (ks.filter fun k => a.design.depth k = a.design.depth j) i j ↔
        StandsBefore ks i j := fun ks =>
    StandsBefore.filter_iff (decide_eq_true hdepth) (decide_eq_true rfl)
  rw [← hfilter, filter_levels, hfilter, found, StandsBefore.filter_iff (happlies hi) (happlies hj)]

/-- Of two levels, one above the other, the inner one stands first where levels are searched from
    the inside, and the outer one where they are searched from the outside. -/
theorem standsBefore_of_mem_ancestors (hd : a.design.preorder.Nodup) (hi : i ∈ x.levels a)
    (hj : j ∈ x.levels a) (hanc : i ∈ a.design.ancestors j) :
    match x.spec.options.strategy with
    | .bottomUp => StandsBefore (x.levels a) j i
    | .topDown => StandsBefore (x.levels a) i j := by
  have hdepth := Design.depth_lt_of_mem_ancestors hd hanc
  have hne : i ≠ j := fun h => Design.not_mem_ancestors_self hd (h ▸ hanc)
  have hordered := pairwise_levels x a
  cases hs : x.spec.options.strategy with
  | bottomUp =>
      simp only [mayPrecede, hs, decide_eq_true_eq] at hordered
      exact .of_pairwise hordered hj hi hne.symm (by omega)
  | topDown =>
      simp only [mayPrecede, hs, decide_eq_true_eq] at hordered
      exact .of_pairwise hordered hi hj hne (by omega)

/-! ## 5. The levels of the standard operators -/

/-- **A region with a parameter is one of the levels.** -/
theorem mem_levels_of_target (ho : o ∈ Registry.standard.operators) (hp : p ∈ o.targets a level) :
    level ∈ (new spec .standard).levels a := by
  have happlies := Registry.applies_of_mem_targets ho hp
  exact mem_levels_iff.mpr ⟨Registry.mem_preorder_of_applies ho happlies, o, ho, happlies⟩

/-- The levels are a matter of the shape of a design. -/
theorem levels_of_bare (h : a.design.bare = b.design.bare) :
    (new spec .standard).levels a = (new spec .standard).levels b := by
  have hforest := Design.forest_of_bare h
  have hbare : a.bare = b.bare := by rw [Annotated.bare, Annotated.bare, h]
  have happlies : Registry.standard.appliesAnywhere a = Registry.standard.appliesAnywhere b := by
    funext id
    refine Bool.eq_iff_iff.mpr ?_
    unfold Registry.appliesAnywhere
    rw [List.any_eq_true, List.any_eq_true]
    refine exists_congr fun o => and_congr_right fun ho => ?_
    have hshaped := Registry.shaped_of_mem_standard ho
    rw [← hshaped.applies a, ← hshaped.applies b, hbare]
  have hdepth : a.design.depth = b.design.depth := by
    funext id
    have hancestors := congrArg List.length (Design.ancestors_of_bare hforest id)
    unfold Design.ancestors at hancestors
    rwa [List.length_reverse, List.length_reverse, List.length_map, List.length_map] at hancestors
  unfold levels
  dsimp only
  rw [Design.preorder_of_bare hforest, hdepth]
  have hregistry : (new spec .standard).registry = Registry.standard := rfl
  rw [hregistry, happlies]

/-- Changes of parameters leave the levels, and all that a standard operator has at a region. -/
theorem levels_of_sets (hd : a.design.preorder.Nodup) (h : ReflTransGen Annotated.Sets a b) :
    (new spec .standard).levels b = (new spec .standard).levels a ∧
      ∀ o ∈ Registry.standard.operators, ∀ id,
        o.applies b id = o.applies a id ∧ o.targets b id = o.targets a id := by
  have hbare := Annotated.bare_of_sets hd h
  refine ⟨levels_of_bare hbare, fun o ho id => ⟨?_, Registry.targets_of_bare ho hbare id⟩⟩
  have hshaped := Registry.shaped_of_mem_standard ho
  rw [← hshaped.applies a, ← hshaped.applies b, Annotated.bare, Annotated.bare, hbare]

/-- **The levels of the standard operators.** For the design of a listing they are, once each, the
    regions that some operator applies to. From the inside, each level stands behind those below it
    in the tree; from the outside, behind those above it; levels of one depth stand in the order of
    the tree. After any changes of parameters that succeed, the levels are the same, and so is what
    each operator has at each region. -/
theorem levels_ordered {l : Listing} {d : Design} (h : l.design = .ok d) (spec : TargetSpec)
    (t : Table) :
    let levels := (new spec .standard).levels
    let start : Annotated := ⟨d, t⟩
    (levels start).Nodup ∧
    (∀ id, id ∈ levels start ↔ ∃ o ∈ Registry.standard.operators, o.applies start id = true) ∧
    (∀ i ∈ levels start, ∀ j ∈ levels start, i ∈ d.ancestors j →
      match spec.options.strategy with
      | .bottomUp => StandsBefore (levels start) j i
      | .topDown => StandsBefore (levels start) i j) ∧
    (∀ i ∈ levels start, ∀ j ∈ levels start, d.depth i = d.depth j →
      (StandsBefore (levels start) i j ↔ StandsBefore d.preorder i j)) ∧
    ∀ a, ReflTransGen Annotated.Sets start a →
      levels a = levels start ∧
        ∀ o ∈ Registry.standard.operators, ∀ id,
          o.applies a id = o.applies start id ∧ o.targets a id = o.targets start id := by
  intro levels start
  have hd := Listing.nodup_of_design h
  refine ⟨nodup_levels hd, fun id => ?_, fun i hi j hj => ?_, fun i hi j hj => ?_, fun a ha => ?_⟩
  · refine mem_levels_iff.trans (and_iff_right_of_imp fun happlies => ?_)
    obtain ⟨o, ho, happlies⟩ := happlies
    exact Registry.mem_preorder_of_applies ho happlies
  · exact standsBefore_of_mem_ancestors hd hi hj
  · exact standsBefore_levels_iff hi hj
  · exact levels_of_sets hd ha

/-- The two loops, in the order of the tree, before the function; and the same after the second loop
    has been pipelined. -/
theorem levels_ordered_smoothing :
    let start : Annotated := ⟨Smoothing.design, .empty⟩
    (new {} .standard).levels start = [1, 3, 0] ∧
      StandsBefore [1, 3, 0] 3 0 ∧ StandsBefore [1, 3, 0] 1 3 ∧
        ∃ a, start.Sets a ∧ a.design ≠ Smoothing.design ∧
          (new {} .standard).levels a = [1, 3, 0] := by
  intro start
  have hlevels : (new {} .standard).levels start = [1, 3, 0] := by decide +kernel
  have hmem : ∀ i ∈ [1, 3, 0], i ∈ (new {} .standard).levels start := fun i hi => hlevels ▸ hi
  obtain ⟨-, -, habove, hdepth, hsets⟩ := levels_ordered Smoothing.design_listing {} .empty
  have hset : (start.set (.pipeline 3) (.flag true)).1 = .ok ⟨.pipeline 3, .flag false⟩ := by
    decide +kernel
  have hchange : start.Sets (start.set (.pipeline 3) (.flag true)).2 :=
    ⟨.pipeline 3, .flag true, _, Prod.ext hset rfl⟩
  have hinner : StandsBefore ((new {} .standard).levels start) 3 0 :=
    habove 0 (hmem 0 (by decide)) 3 (hmem 3 (by decide)) (by decide +kernel)
  have hfirst : StandsBefore ((new {} .standard).levels start) 1 3 :=
    (hdepth 1 (hmem 1 (by decide)) 3 (hmem 3 (by decide)) (by decide +kernel)).mpr
      (by decide +kernel)
  refine ⟨hlevels, hlevels ▸ hinner, hlevels ▸ hfirst, _, hchange, by decide +kernel, ?_⟩
  exact (hsets _ (.single hchange)).1.trans hlevels

end Explorer

end DesignSpace
