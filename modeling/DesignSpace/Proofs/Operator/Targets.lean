/-
  Subject:   WHAT A SEARCH MAY CHANGE, AND WHAT NOT. Where the standard operators apply, and which
             parameters they have there, is a matter of the shape of a design; directives and banks,
             which a search changes, have no part in it.

  * `Operator.Shaped`: an operator that goes by the shape of a design;
  * `Registry.shaped_of_mem_standard`: the standard operators, one by one;
  * `Registry.targets_of_bare`: **designs that differ in directives and banks have the same
    parameters.**
-/
import DesignSpace.Operator
import DesignSpace.Proofs.Forest.Bare

namespace DesignSpace

/-- A design without directives and banks, with no estimates. -/
def Annotated.bare (a : Annotated) : Annotated := ⟨a.design.bare, .empty⟩

/-- **An operator that goes by the shape of a design**: where it applies, and what it has there, is
    the same without directives, banks and estimates. -/
structure Operator.Shaped (o : Operator) : Prop where
  applies : ∀ a id, o.applies a.bare id = o.applies a id
  targets : ∀ a id, o.targets a.bare id = o.targets a id

/-! ## 1. Regions and arrays -/

section Shape

variable (a : Annotated) (id : RegionId)

/-- The nest of a region without its directives. -/
theorem Annotated.find?_bare : a.bare.find? id = (a.find? id).map (Nest.map Region.bare) :=
  Forest.find?_map directing_bare.id_eq a.design.forest id

theorem Annotated.isStaticLoop_bare : a.bare.isStaticLoop id = a.isStaticLoop id := by
  have hfind : a.bare.design.find? id = _ := a.find?_bare id
  unfold isStaticLoop Design.loop?
  rw [hfind]
  cases hn : a.find? id with
  | none =>
      have hnone : a.design.find? id = none := hn
      rw [hnone]
      rfl
  | some n =>
      have hsome : a.design.find? id = some n := hn
      obtain ⟨⟨_, k, _⟩, _⟩ := n
      rw [hsome]
      cases k <;> rfl

/-- The arrays of a region without their banks. -/
theorem Annotated.scopedTo_bare :
    a.bare.design.scopedTo id = (a.design.scopedTo id).map ArrayDecl.bare := by
  show (a.design.arrays.map ArrayDecl.bare).filter _ = (a.design.arrays.filter _).map ArrayDecl.bare
  rw [List.filter_map]
  rfl

end Shape

/-! ## 2. The standard operators -/

namespace Operator

/-- An operator with one parameter goes by the shape if it applies by the shape. -/
theorem Shaped.single {name : String} {applies : Annotated → RegionId → Bool}
    {parameter : RegionId → Parameter} {domain : Annotated → Parameter → List Setting}
    (h : ∀ a id, applies a.bare id = applies a id) :
    (Operator.single name applies parameter domain).Shaped where
  applies := h
  targets a id := by
    show (if applies a.bare id = true then _ else _ : List Parameter) =
      if applies a id = true then _ else _
    rw [h]

end Operator

theorem pipelineOperator.shaped : pipelineOperator.Shaped := by
  refine .single fun a id => ?_
  rw [a.isStaticLoop_bare, a.find?_bare]
  cases a.find? id with
  | none => rfl
  | some n => exact congrArg (a.isStaticLoop id && ·) (Nest.innerLoopsStatic_map directing_bare n)

theorem unrollOperator.shaped : unrollOperator.Shaped := .single Annotated.isStaticLoop_bare

theorem tileOperator.shaped : tileOperator.Shaped := .single Annotated.isStaticLoop_bare

theorem dataflowOperator.shaped : dataflowOperator.Shaped := by
  refine .single fun a id => ?_
  rw [a.find?_bare]
  cases a.find? id with
  | none => rfl
  | some n =>
      have hlength := Nest.length_children_map (g := Region.bare) n
      obtain ⟨⟨_, k, _⟩, _⟩ := n
      cases k with
      | func f => exact congrArg (fun k => decide (2 ≤ k)) hlength
      | block _ => rfl
      | loop _ => rfl
      | dataflow => rfl

theorem partitionOperator.shaped : partitionOperator.Shaped := by
  have howns : ∀ a id, partitionOperator.owns a.bare id = partitionOperator.owns a id := by
    intro a id
    unfold partitionOperator.owns
    rw [a.find?_bare, a.scopedTo_bare]
    cases a.find? id with
    | none => rfl
    | some n =>
        have hscope := Region.isScope_bare n.region
        show (n.region.bare.kind.isScope &&
          !((a.design.scopedTo id).map ArrayDecl.bare).isEmpty) = _
        rw [hscope, List.isEmpty_map]
  refine ⟨howns, fun a id => ?_⟩
  show (if partitionOperator.owns a.bare id = true then _ else _ : List Parameter) =
    if partitionOperator.owns a id = true then _ else _
  rw [howns, a.scopedTo_bare, List.map_map]
  rfl

namespace Registry

/-- The operators of a search are those of its registry. -/
theorem mem_of_mem_ordered {r : Registry} {priority : List String} {o : Operator}
    (h : o ∈ r.ordered priority) : o ∈ r.operators := by
  rcases List.mem_append.mp h with h | h
  · obtain ⟨name, -, hname⟩ := List.mem_filterMap.mp h
    exact List.mem_of_find?_eq_some hname
  · exact (List.mem_filter.mp h).1

theorem shaped_of_mem_standard {o : Operator} (ho : o ∈ standard.operators) : o.Shaped := by
  rcases mem_standard_iff.mp ho with rfl | rfl | rfl | rfl | rfl
  · exact pipelineOperator.shaped
  · exact unrollOperator.shaped
  · exact tileOperator.shaped
  · exact partitionOperator.shaped
  · exact dataflowOperator.shaped

/-- **Designs that differ in directives and banks have the same parameters**, for each standard
    operator at each region. -/
theorem targets_of_bare {o : Operator} (ho : o ∈ standard.operators) {a b : Annotated}
    (h : a.design.bare = b.design.bare) (id : RegionId) : o.targets a id = o.targets b id := by
  have hshaped := shaped_of_mem_standard ho
  have hbare : a.bare = b.bare := by rw [Annotated.bare, Annotated.bare, h]
  rw [← hshaped.targets a, ← hshaped.targets b, hbare]

end Registry

end DesignSpace
