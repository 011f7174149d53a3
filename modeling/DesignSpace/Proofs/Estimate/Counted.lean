/-
  Subject:   NO COUNT OF HARDWARE IS LARGER THAN A COUNT CAN BE, whatever the numbers of a design.
             By how much an estimate passes the budgets is therefore a number, never the quotient
             of two zeros or of two infinities.

  * `Resources.Counted`: hardware within the limit of counts;
  * `Estimator.counted_combine`, `counted_fresh`: **one region, and forests**;
  * `Target.isAmount_overshoot`: the overshoot of such hardware.
-/
import DesignSpace.Proofs.Decimal.Amount
import DesignSpace.Proofs.Estimate.Fresh
import DesignSpace.Proofs.Stages

namespace DesignSpace

variable {e : Estimator} {d : Design} {c : Context} {n : Nest} {parts : List Metrics}
  {arrays : List ArrayDecl} {a b : Resources}

/-! ## 1. Counts -/

namespace Count

theorem ceilDiv_le (a b : Nat) : ceilDiv a b ≤ a := by
  unfold ceilDiv
  split
  · exact Nat.le_refl a
  · rename_i hb
    have hdiv := Nat.div_add_mod a b
    have hle : a / b ≤ b * (a / b) := Nat.le_mul_of_pos_left _ (Nat.pos_of_ne_zero hb)
    split <;> omega

end Count

namespace Resources

/-- No count of hardware is larger than a count can be. -/
def Counted (r : Resources) : Prop := ∀ k, r.get k ≤ Count.limit

theorem counted_iff {r : Resources} :
    r.Counted ↔ r.computeUnits ≤ Count.limit ∧ r.memoryPorts ≤ Count.limit ∧
      r.storageElements ≤ Count.limit ∧ r.controlUnits ≤ Count.limit := by
  constructor
  · exact fun h => ⟨h .computeUnit, h .memoryPort, h .storageElement, h .controlUnit⟩
  · rintro ⟨hunits, hports, hstorage, hcontrol⟩ k
    cases k with
    | computeUnit => exact hunits
    | memoryPort => exact hports
    | storageElement => exact hstorage
    | controlUnit => exact hcontrol

theorem counted_empty : ({} : Resources).Counted :=
  counted_iff.mpr ⟨Nat.zero_le _, Nat.zero_le _, Nat.zero_le _, Nat.zero_le _⟩

theorem Counted.sequential (ha : a.Counted) (hb : b.Counted) : (a.sequential b).Counted := by
  obtain ⟨hunits, hports, -, hcontrol⟩ := counted_iff.mp ha
  obtain ⟨hunits', hports', -, hcontrol'⟩ := counted_iff.mp hb
  exact counted_iff.mpr ⟨Nat.max_le.mpr ⟨hunits, hunits'⟩, Nat.max_le.mpr ⟨hports, hports'⟩,
    Count.add_le_limit _ _, Nat.max_le.mpr ⟨hcontrol, hcontrol'⟩⟩

theorem counted_concurrent (a b : Resources) : (a.concurrent b).Counted :=
  counted_iff.mpr ⟨Count.add_le_limit _ _, Count.add_le_limit _ _, Count.add_le_limit _ _,
    Count.add_le_limit _ _⟩

end Resources

/-! ## 2. Parts -/

theorem counted_compose {kind : Composition} (h : ∀ p ∈ parts, p.resources.Counted) :
    (compose kind parts).resources.Counted := by
  have hfold : ∀ (f : Resources → Resources → Resources),
      (∀ r s, r.Counted → s.Counted → (f r s).Counted) →
      ∀ (ms : List Metrics) (r : Resources), (∀ p ∈ ms, p.resources.Counted) → r.Counted →
        (ms.foldl (fun r p => f r p.resources) r).Counted := by
    intro f hf ms r hms hr
    induction ms generalizing r with
    | nil => exact hr
    | cons m ms ih =>
        obtain ⟨hm, hms⟩ := List.forall_mem_cons.mp hms
        exact ih _ hms (hf _ _ hr hm)
  cases parts with
  | nil => exact Resources.counted_empty
  | cons first rest =>
      obtain ⟨hfirst, hrest⟩ := List.forall_mem_cons.mp h
      cases kind with
      | sequential => exact hfold _ (fun _ _ => .sequential) rest _ hrest hfirst
      | dataflow =>
          exact hfold _ (fun r s _ _ => Resources.counted_concurrent r s) rest _ hrest hfirst

theorem counted_composeStages (h : ∀ p ∈ parts, p.resources.Counted) (stages : List Span) :
    (composeStages parts stages).resources.Counted := by
  unfold composeStages
  split
  · exact counted_compose h
  · refine counted_compose fun p hp => ?_
    obtain ⟨s, -, rfl⟩ := List.mem_map.mp hp
    exact counted_compose fun q hq => h q (List.mem_of_mem_drop (List.mem_of_mem_take hq))

/-! ## 3. Regions -/

namespace CostModel

theorem counted_blockMetrics (k : CostModel) (b : Block) :
    (k.blockMetrics arrays c b).resources.Counted :=
  Resources.counted_iff.mpr
    ⟨Count.mul_le_limit _ _, Count.sum_le_limit _, Nat.zero_le _, Nat.zero_le _⟩

theorem counted_flatLoopMetrics (k : CostModel) :
    (k.flatLoopMetrics arrays c n).resources.Counted := by
  unfold flatLoopMetrics
  cases n.region.loop? with
  | none => exact Resources.counted_empty
  | some l =>
      have hcontrol : 1 ≤ Count.limit := by decide
      dsimp only
      generalize hbody : k.flatBody arrays (c.enter arrays n) l.iv n.below = body
      have hunits : body.units ≤ Count.limit := hbody ▸ Count.sum_le_limit _
      have hports : body.pressure.ports ≤ Count.limit := hbody ▸ Count.sum_le_limit _
      -- iterations that overlap share units
      have hshared : (if l.directives.pipeline then Count.ceilDiv body.units (l.initiation body)
          else body.units) ≤ Count.limit := by
        split
        · exact (Count.ceilDiv_le _ _).trans hunits
        · exact hunits
      split <;>
        exact Resources.counted_iff.mpr ⟨hshared, hports, Count.sum_le_limit _, hcontrol⟩

theorem counted_outerLoopMetrics {body : Metrics} (h : body.resources.Counted) :
    (outerLoopMetrics arrays c n body).resources.Counted := by
  unfold outerLoopMetrics
  cases n.region.loop? with
  | none => exact h
  | some l =>
      obtain ⟨hunits, hports, -, -⟩ := Resources.counted_iff.mp h
      dsimp only
      split <;>
        exact Resources.counted_iff.mpr
          ⟨hunits, hports, Count.add_le_limit _ _, Count.add_le_limit _ _⟩

end CostModel

namespace Estimator

theorem counted_scopeMetrics (h : ∀ p ∈ parts, p.resources.Counted) (controllers : Nat) :
    (scopeMetrics d n parts controllers).resources.Counted := by
  obtain ⟨hunits, hports, -, -⟩ :=
    Resources.counted_iff.mp (counted_composeStages h (stagesOf n parts))
  exact Resources.counted_iff.mpr
    ⟨hunits, hports, Count.add_le_limit _ _, Count.add_le_limit _ _⟩

/-- **One region**: counts of its parts that are no larger than a count can be give such counts. -/
theorem counted_combine (h : ∀ p ∈ parts, p.resources.Counted) :
    (e.combine d c n parts).resources.Counted := by
  unfold combine
  cases n.region.kind with
  | block b => exact e.model.counted_blockMetrics b
  | loop l =>
      dsimp only
      split
      · exact e.model.counted_flatLoopMetrics
      · exact CostModel.counted_outerLoopMetrics (counted_composeStages h _)
  | func f => exact counted_scopeMetrics h 1
  | dataflow => exact counted_scopeMetrics h 0

/-- **No count in the estimates of a forest is larger than a count can be.** -/
theorem counted_fresh (e : Estimator) (d : Design) (c : Context) (f : Forest) :
    ∀ p ∈ e.fresh d c f, p.resources.Counted := by
  induction f generalizing c with
  | nil => exact fun p hp => absurd hp List.not_mem_nil
  | cons r below after ihb iha =>
      rw [fresh, List.forall_mem_cons]
      exact ⟨counted_combine (ihb _), iha c⟩

theorem counted_rootMetrics (e : Estimator) (d : Design) : (e.rootMetrics d).resources.Counted :=
  counted_combine (e.counted_fresh d _ _)

end Estimator

/-! ## 4. Overshoot -/

namespace Target

open Double

/-- A count that passes a budget has one that is no larger than a count can be. -/
theorem isAmount_excess {used : Nat} (h : used ≤ Count.limit) (budget : Nat) :
    IsAmount (excess used budget) := by
  unfold excess
  split
  · exact isAmount_zero
  · rename_i hover
    split
    · exact isAmount_ofCount used
    · rename_i hzero
      exact (isAmount_ofCount _).div
        (isPositive_ofCount (Nat.pos_of_ne_zero hzero) (by omega))

/-- **The overshoot of an estimate is a number.** -/
theorem isAmount_overshoot (t : Target) {m : Metrics} (h : m.resources.Counted) :
    IsAmount (t.overshoot m) := by
  have hfold : ∀ (xs : List (ResourceKind × Nat)) (sum : Float), IsAmount sum →
      IsAmount (xs.foldl (fun sum x => sum + excess (m.resources.get x.1) x.2) sum) := by
    intro xs sum hsum
    induction xs generalizing sum with
    | nil => exact hsum
    | cons x xs ih => exact ih _ (hsum.add (isAmount_excess (h x.1) x.2))
  exact hfold _ _ isAmount_negZero

end Target

end DesignSpace
