/-
  Subject:   THE COPIES OF A BODY. Loops that are unrolled around a region lay its body side by
             side. Their factors are kept by variable: of two such loops over one variable only the
             inner one counts.

  * `Design.loopsAbove`, `unrollsAbove`: the loops around a region, and the unrolled ones as pairs of
    variable and factor;
  * `Design.copies_context`: **the copies are the product of the factors that last**;
  * `Design.copies_eq_iff`: that is the product of all factors where the variables differ, or at the
    limit, and nowhere else;
  * `Estimator.copies_run`: the same of every design that is accepted, with the units of a block;
  * `Shadowed.factor_lost`: two loops over one variable, and a factor that is lost.
-/
import Mathlib.Algebra.BigOperators.Group.List.Basic
import Mathlib.Data.String.Basic
import DesignSpace.Proofs.Design.Distinct
import DesignSpace.Proofs.Parameter.Admits

namespace DesignSpace

/-! ## 1. Products -/

namespace Count

theorem foldl_mul {a : Nat} (ha : a ≤ limit) (xs : List Nat) :
    xs.foldl mul a = min (a * xs.prod) limit := by
  induction xs generalizing a with
  | nil => rw [List.prod_nil, Nat.mul_one, Nat.min_eq_left ha, List.foldl_nil]
  | cons x xs ih =>
      rw [List.foldl_cons, ih (mul_le_limit a x), List.prod_cons, ← Nat.mul_assoc]
      rcases Nat.le_total (a * x) limit with hle | hge
      · rw [mul, Nat.min_eq_left hle]
      · rw [mul, Nat.min_eq_right hge]
        rcases Nat.eq_zero_or_pos xs.prod with hzero | hpos
        · rw [hzero, Nat.mul_zero, Nat.mul_zero]
        · have hlimit : limit ≤ limit * xs.prod := Nat.le_mul_of_pos_right _ hpos
          rw [Nat.min_eq_right hlimit, Nat.min_eq_right]
          exact Nat.le_trans hge (Nat.le_mul_of_pos_right _ hpos)

theorem product_eq (xs : List Nat) : product xs = min xs.prod limit := by
  rw [product, foldl_mul (by decide), Nat.one_mul]

end Count

/-! ## 2. Factors that are replaced -/

namespace Keyed

variable {entries : List (String × Nat)}

theorem prod_lasting_pos (h : ∀ e ∈ entries, 1 < e.2) :
    0 < ((lasting entries).map Prod.snd).prod := by
  induction entries with
  | nil => exact Nat.one_pos
  | cons e rest ih =>
      obtain ⟨he, hrest⟩ := List.forall_mem_cons.mp h
      unfold lasting
      split
      · exact ih hrest
      · rw [List.map_cons, List.prod_cons]
        exact Nat.mul_pos (by omega) (ih hrest)

theorem prod_lasting_le (h : ∀ e ∈ entries, 1 < e.2) :
    ((lasting entries).map Prod.snd).prod ≤ (entries.map Prod.snd).prod := by
  induction entries with
  | nil => exact Nat.le_refl _
  | cons e rest ih =>
      obtain ⟨he, hrest⟩ := List.forall_mem_cons.mp h
      unfold lasting
      rw [List.map_cons, List.prod_cons]
      split
      · exact Nat.le_trans (ih hrest) (Nat.le_mul_of_pos_left _ (by omega))
      · rw [List.map_cons, List.prod_cons]
        exact Nat.mul_le_mul_left _ (ih hrest)

/-- A factor that is replaced is missing from the product. -/
theorem prod_lasting_lt (h : ∀ e ∈ entries, 1 < e.2) (hrepeated : ¬(entries.map Prod.fst).Nodup) :
    ((lasting entries).map Prod.snd).prod < (entries.map Prod.snd).prod := by
  induction entries with
  | nil => exact absurd List.nodup_nil hrepeated
  | cons e rest ih =>
      obtain ⟨he, hrest⟩ := List.forall_mem_cons.mp h
      have hle := prod_lasting_le hrest
      have hpos := prod_lasting_pos hrest
      unfold lasting
      rw [List.map_cons, List.prod_cons]
      split
      · -- at least twice what is left without the factor
        have htwice := Nat.mul_le_mul he hle
        omega
      · rename_i hlater
        have hlt := ih hrest fun hnodup => hrepeated (List.nodup_cons.mpr ⟨hlater, hnodup⟩)
        rw [List.map_cons, List.prod_cons]
        exact Nat.mul_lt_mul_of_pos_left hlt (by omega)

end Keyed

/-! ## 3. Contexts -/

/-- Variable and factor of those of some loops that are unrolled. -/
def Loop.unrolls (loops : List Loop) : List (String × Nat) :=
  (loops.map fun l => (l.iv, l.directives.unroll)).filter fun e => decide (1 < e.2)

theorem Loop.unrolls_cons (l : Loop) (loops : List Loop) : unrolls (l :: loops) =
    if 1 < l.directives.unroll then (l.iv, l.directives.unroll) :: unrolls loops
    else unrolls loops := by
  simp [unrolls, List.filter_cons]

namespace Design

/-- The loops around a region, the outermost first. -/
def loopsAbove (d : Design) (id : RegionId) : List Loop :=
  (d.above id).filterMap fun n => n.region.loop?

/-- Variable and factor of each loop around a region that is unrolled, the outermost first. -/
def unrollsAbove (d : Design) (id : RegionId) : List (String × Nat) :=
  Loop.unrolls (d.loopsAbove id)

end Design

variable {c : Context} {d : Design} {n : Nest} {id : RegionId} {arrays : List ArrayDecl}

namespace Context

theorem unrolled_withFactor (iv : String) (factor : Nat) : (c.withFactor iv factor).unrolled =
    if 1 < factor then Keyed.insert c.unrolled iv factor else c.unrolled := by
  unfold withFactor
  split <;> rfl

theorem unrolled_enter_of_loop {l : Loop} (h : n.region.loop? = some l) :
    (c.enter arrays n).unrolled = if 1 < l.directives.unroll
      then Keyed.insert c.unrolled l.iv l.directives.unroll else c.unrolled := by
  unfold enter
  rw [h]
  exact unrolled_withFactor _ _

theorem unrolled_enter_of_none (h : n.region.loop? = none) :
    (c.enter arrays n).unrolled = c.unrolled := by
  unfold enter
  rw [h]

/-- Below some nests, the factors are those put in by their unrolled loops. -/
theorem unrolled_foldl_enter (path : List Nest) :
    (path.foldl (fun c n => c.enter arrays n) c).unrolled =
      (Loop.unrolls (path.filterMap fun n => n.region.loop?)).foldl
        (fun m e => Keyed.insert m e.1 e.2) c.unrolled := by
  induction path generalizing c with
  | nil => rfl
  | cons n path ih =>
      rw [List.foldl_cons, ih]
      cases hl : n.region.loop? with
      | none => simp only [unrolled_enter_of_none hl, List.filterMap_cons, hl]
      | some l =>
          simp only [unrolled_enter_of_loop hl, List.filterMap_cons, hl, Loop.unrolls_cons]
          split <;> rfl

end Context

namespace Design

/-- **The copies are the product of the factors that last**: of two unrolled loops over one variable
    only the inner one counts. -/
theorem copies_context (d : Design) (id : RegionId) :
    (d.context id).copies =
      Count.product ((Keyed.lasting (d.unrollsAbove id)).map Prod.snd) := by
  have hunrolled : (d.context id).unrolled = Keyed.ofList (d.unrollsAbove id) :=
    Context.unrolled_foldl_enter _
  have hperm := (Keyed.perm_ofList (d.unrollsAbove id)).map Prod.snd
  rw [Context.copies, hunrolled, Count.product_eq, Count.product_eq, hperm.prod_eq]

theorem one_lt_of_mem_unrollsAbove {e : String × Nat} (he : e ∈ d.unrollsAbove id) : 1 < e.2 :=
  of_decide_eq_true (List.mem_filter.mp he).2

/-- No loop of a design that keeps the rules is unrolled by nothing. -/
theorem unroll_pos_of_check (hc : d.check = .ok ()) {l : Loop} (hl : l ∈ d.loopsAbove id) :
    0 < l.directives.unroll := by
  obtain ⟨n, hn, hloop⟩ := List.mem_filterMap.mp hl
  have hnest := (check_eq_ok_iff.mp hc).2.2 n (mem_of_mem_above hn).1
  have hkind : n.region.kind = .loop l := Region.loop?_eq_some_iff.mp hloop
  exact Nat.pos_of_ne_zero (Loop.check_eq_ok_iff.mp ((checkNest_loop_iff hkind).mp hnest)).1

/-- Loops that are not unrolled add nothing to the product of all factors. -/
theorem prod_loopsAbove (hc : d.check = .ok ()) (id : RegionId) :
    ((d.loopsAbove id).map fun l => l.directives.unroll).prod =
      ((d.unrollsAbove id).map Prod.snd).prod := by
  have hpos : ∀ l ∈ d.loopsAbove id, 0 < l.directives.unroll := fun l => unroll_pos_of_check hc
  unfold unrollsAbove
  generalize d.loopsAbove id = loops at hpos ⊢
  induction loops with
  | nil => rfl
  | cons l loops ih =>
      obtain ⟨hl, hloops⟩ := List.forall_mem_cons.mp hpos
      rw [List.map_cons, List.prod_cons, ih hloops, Loop.unrolls_cons]
      split
      · rfl
      · have hone : l.directives.unroll = 1 := by omega
        rw [hone, Nat.one_mul]

/-- **All factors count** where the loops that are unrolled run over different variables, or where
    the copies are at the limit, and nowhere else. -/
theorem copies_eq_iff (hc : d.check = .ok ()) (id : RegionId) :
    (d.context id).copies =
        Count.product ((d.loopsAbove id).map fun l => l.directives.unroll) ↔
      ((d.unrollsAbove id).map Prod.fst).Nodup ∨ (d.context id).copies = Count.limit := by
  have hunroll : ∀ e ∈ d.unrollsAbove id, 1 < e.2 := fun e => one_lt_of_mem_unrollsAbove
  have hle := Keyed.prod_lasting_le hunroll
  rw [copies_context, Count.product_eq, Count.product_eq, prod_loopsAbove hc]
  by_cases hnodup : ((d.unrollsAbove id).map Prod.fst).Nodup
  · rw [Keyed.lasting_eq_self hnodup]
    exact iff_of_true rfl (.inl hnodup)
  · have hlt := Keyed.prod_lasting_lt hunroll hnodup
    rw [or_iff_right hnodup]
    omega

end Design

/-! ## 4. Designs that are accepted -/

namespace Estimator

variable {e : Estimator}

/-- The units of a block are those of one copy times the copies. -/
theorem units_estimate? {b : Block} (hn : d.find? id = some n) (hb : n.region.kind = .block b) :
    (e.estimate? d id).map (fun s => s.metrics.resources.computeUnits) =
      some (Count.mul (e.model.units b) (d.context id).copies) := by
  rw [estimate?, hn, Option.map_some, Option.map_some, estimate, combine, hb]
  rfl

/-- **The copies in a design that is accepted.** They are the product of the unroll factors around
    a region, where of two unrolled loops over one variable only the inner one counts. So all loops
    around it count exactly where the unrolled ones run over different variables, or at the limit.
    An estimate of the whole design succeeds, and has for each block its units times its copies. -/
theorem copies_run {l : Listing} (hd : l.design = .ok d) (id : RegionId) :
    (d.context id).copies =
        Count.product ((Keyed.lasting (d.unrollsAbove id)).map Prod.snd) ∧
      ((d.context id).copies =
          Count.product ((d.loopsAbove id).map fun l => l.directives.unroll) ↔
        ((d.unrollsAbove id).map Prod.fst).Nodup ∨ (d.context id).copies = Count.limit) ∧
      ∀ (e : Estimator) (t : Table), ∃ summary a, e.run ⟨d, t⟩ = .ok (summary, a) ∧
        ∀ n b, d.find? id = some n → n.region.kind = .block b →
          (a.table.metrics? id).map (fun m => m.resources.computeUnits) =
            some (Count.mul (e.model.units b) (d.context id).copies) := by
  have hc := (Listing.tree_of_design hd).2
  refine ⟨d.copies_context id, Design.copies_eq_iff hc id, fun e t => ?_⟩
  have hrun : e.run ⟨d, t⟩ = .ok (_, _) := run_eq_ok_iff.mpr ⟨hc, rfl, rfl⟩
  obtain ⟨hcomplete, hdesign⟩ := complete_run (a := ⟨d, t⟩) (Listing.nodup_of_design hd) hrun
  refine ⟨_, _, hrun, fun n b hn hb => ?_⟩
  rw [Table.metrics?, hcomplete.full id, hdesign, Option.map_map]
  exact units_estimate? hn hb

/-- The loop in tiles of eight is unrolled twice, and so is the block in it. -/
theorem copies_run_smoothing : Smoothing.listing.design = .ok Smoothing.design ∧
    (Smoothing.design.context 2).copies = 2 ∧
    ∃ summary a, (Estimator.new none {}).run ⟨Smoothing.design, .empty⟩ = .ok (summary, a) ∧
      (a.table.metrics? 2).map (fun m => m.resources.computeUnits) =
        some (Count.mul ((Estimator.new none {}).model.units Smoothing.doubleBody) 2) := by
  have hcopies : (Smoothing.design.context 2).copies = 2 := by decide +kernel
  obtain ⟨-, -, hrun⟩ := copies_run Smoothing.design_listing 2
  obtain ⟨summary, a, hrun, hblock⟩ := hrun (Estimator.new none {}) .empty
  refine ⟨Smoothing.design_listing, hcopies, summary, a, hrun, ?_⟩
  rw [← hcopies]
  exact hblock ⟨⟨2, .block Smoothing.doubleBody, none⟩, .nil⟩ _ (by decide +kernel) rfl

end Estimator

/-! ## 5. A factor that is lost -/

namespace Shadowed

/-- The outer loop, unrolled twice. -/
def outer : Loop := { iv := "i", trip := .static 4, directives := ⟨false, 2, none⟩ }

/-- A loop over the same variable, unrolled four times. -/
def inner : Loop := { iv := "i", trip := .static 4, directives := ⟨false, 4, none⟩ }

/-- One sum. -/
def body : Block where
  ops := [⟨.add, 32⟩]

/-- Two loops over variables of one name, and a function between the inner one and its block. -/
def listing : Listing where
  name := "shadowed"
  records :=
    [⟨⟨0, .func { name := "top" }, none⟩, none⟩, ⟨⟨1, .loop outer, none⟩, some 0⟩,
     ⟨⟨2, .loop inner, none⟩, some 1⟩, ⟨⟨3, .func { name := "step" }, none⟩, some 2⟩,
     ⟨⟨4, .block body, none⟩, some 3⟩]
  arrays := []

/-- The nest as a tree. -/
def design : Design where
  name := "shadowed"
  root := ⟨0, .func { name := "top" }, none⟩
  below :=
    .cons ⟨1, .loop outer, none⟩
      (.cons ⟨2, .loop inner, none⟩
        (.cons ⟨3, .func { name := "step" }, none⟩
          (.cons ⟨4, .block body, none⟩ .nil .nil) .nil) .nil) .nil
  arrays := []

/-- **The factor of the outer loop is lost**: the block has four copies and is estimated with four
    units, and the factors around it make eight. -/
theorem factor_lost : listing.design = .ok design ∧
    (design.context 4).copies = 4 ∧
    Count.product ((design.loopsAbove 4).map fun l => l.directives.unroll) = 8 ∧
    ((Estimator.new none {}).run ⟨design, .empty⟩).toOption.bind (fun r =>
      (r.2.table.metrics? 4).map fun m => m.resources.computeUnits) = some 4 := by
  refine ⟨?_, ?_, ?_, ?_⟩ <;> decide +kernel

end Shadowed

end DesignSpace
