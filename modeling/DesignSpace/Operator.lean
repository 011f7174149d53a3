/-
  Subject:   OPERATORS: what a search may change at a region, and the values it may try.

  * `Operator`: where it applies, its parameters, and the values allowed for each;
  * `Operator.apply`: a parameter changed to one of the values allowed;
  * `pipelineOperator`, `unrollOperator`, `tileOperator`, `partitionOperator`,
    `dataflowOperator`: the standard operators;
  * `Registry`: operators by name, in the order in which they came;
  * `Registry.get?_register`: which operator a name stands for.
-/
import DesignSpace.Parameter
import DesignSpace.Divisors

namespace DesignSpace

/-- A way to change a design. What it offers may follow the design and what is known of it. An
    operator that `refuses` changes nothing, whatever it is asked. -/
structure Operator where
  name : String
  applies : Annotated → RegionId → Bool
  targets : Annotated → RegionId → List Parameter
  domain : Annotated → Parameter → List Setting
  refuses : Bool := false

namespace Operator

/-- A parameter changed to a value of its domain. -/
def apply (o : Operator) (a : Annotated) (p : Parameter) (s : Setting) :
    Except ChangeError Change × Annotated :=
  if o.refuses then (.error (.notApplicable p .refused), a)
  else if (o.domain a p).contains s then a.set p s
  else (.error (.outOfDomain p s), a)

/-- An operator with one parameter at each region where it applies. -/
def single (name : String) (applies : Annotated → RegionId → Bool)
    (parameter : RegionId → Parameter) (domain : Annotated → Parameter → List Setting) :
    Operator where
  name := name
  applies := applies
  targets a id := if applies a id then [parameter id] else []
  domain := domain

end Operator

/-! ## 1. The standard operators -/

/-- Whether a region is a loop that is known to run a number of times. -/
def Annotated.isStaticLoop (a : Annotated) (id : RegionId) : Bool :=
  match a.design.loop? id with
  | some l => l.trip.bounded.isSome
  | none => false

/-- Iterations of a loop may overlap where all loops below it are bounded too. -/
def pipelineOperator : Operator :=
  .single "pipeline"
    (fun a id => a.isStaticLoop id && ((a.find? id).map Nest.innerLoopsStatic).getD true)
    .pipeline
    fun _ p =>
      match p with
      | .pipeline _ => [.flag false, .flag true]
      | _ => []

/-- The unroll factor of a loop divides its tile. -/
def unrollOperator : Operator :=
  .single "unroll" Annotated.isStaticLoop .unroll
    fun a p =>
      match p with
      | .unroll id =>
        match (a.design.loop? id).bind Loop.effectiveTile with
        | some t => (divisors t).map .factor
        | none => []
      | _ => []

/-- The tile of a loop divides its trip count and is a multiple of its unroll factor. -/
def tileOperator : Operator :=
  .single "tile" Annotated.isStaticLoop .tile
    fun a p =>
      match p with
      | .tile id =>
        match a.design.loop? id with
        | some l =>
          match l.trip.bounded with
          | some n =>
            ((divisors n).filter fun t => t % max l.directives.unroll 1 == 0).map .factor
          | none => []
        | none => []
      | _ => []

/-- The number of banks of an array divides its last extent. -/
def partitionOperator : Operator where
  name := "partition"
  applies := owns
  targets a id :=
    if owns a id then (a.design.scopedTo id).map fun x => .partition x.name else []
  domain a p :=
    match p with
    | .partition name =>
      match a.design.array? name with
      | some x => (divisors x.lastExtent).map .factor
      | none => []
    | _ => []
where
  /-- Whether a region is a function or dataflow node with arrays of its own. -/
  owns (a : Annotated) (id : RegionId) : Bool :=
    match a.find? id with
    | some n => n.region.kind.isScope && !(a.design.scopedTo id).isEmpty
    | none => false

/-- A function has from one stage up to as many as it has parts. -/
def dataflowOperator : Operator :=
  .single "dataflow"
    (fun a id =>
      match a.find? id with
      | some n =>
        match n.region.kind with
        | .func _ => decide (2 ≤ n.children.length)
        | _ => false
      | none => false)
    .dataflow
    fun a p =>
      match p with
      | .dataflow id =>
        let parts := match a.find? id with
          | some n => n.children.length
          | none => 0
        (List.range (max parts 1)).map fun i => .factor (i + 1)
      | _ => []

/-! ## 2. Registries -/

/-- Operators with different names, in the order in which the names came. -/
structure Registry where
  operators : List Operator := []

namespace Registry

/-- The names of the operators. -/
def names (r : Registry) : List String := r.operators.map Operator.name

/-- One more operator, in the place of the one with its name if there is one. -/
def register (r : Registry) (o : Operator) : Registry :=
  ⟨if r.names.contains o.name then replace r.operators else r.operators ++ [o]⟩
where
  /-- The list with the first operator of the name replaced. -/
  replace : List Operator → List Operator
    | [] => []
    | x :: xs => if x.name = o.name then o :: xs else x :: replace xs

/-- The operator with a name. -/
def get? (r : Registry) (name : String) : Option Operator :=
  r.operators.find? fun o => o.name = name

theorem find?_replace (o : Operator) (name : String) (xs : List Operator)
    (h : ∃ x ∈ xs, x.name = o.name) :
    (register.replace o xs).find? (fun x => x.name = name) =
      if o.name = name then some o else xs.find? fun x => x.name = name := by
  induction xs with
  | nil => simp at h
  | cons x xs ih =>
    unfold register.replace
    by_cases hx : x.name = o.name
    · by_cases hn : o.name = name
      · simp [hx, hn]
      · simp [hx, hn]
    · have hxs : ∃ x ∈ xs, x.name = o.name := by
        obtain ⟨y, hy, hyo⟩ := h
        rcases List.mem_cons.mp hy with rfl | hm
        · exact absurd hyo hx
        · exact ⟨y, hm, hyo⟩
      rw [if_neg hx, List.find?_cons, List.find?_cons, ih hxs]
      by_cases hn : o.name = name
      · simp [hn, hn ▸ hx]
      · simp [hn]

/-- A registered operator is found under its name, and other names find what they found before. -/
theorem get?_register (r : Registry) (o : Operator) (name : String) :
    (r.register o).get? name = if o.name = name then some o else r.get? name := by
  unfold get? register names
  by_cases h : (r.operators.map Operator.name).contains o.name
  · rw [if_pos h]
    exact find?_replace o name r.operators (by simpa using h)
  · rw [if_neg h, List.find?_append]
    have hr : ∀ x ∈ r.operators, x.name ≠ o.name := by simpa using h
    by_cases hn : o.name = name
    · have : r.operators.find? (fun x => x.name = name) = none := by
        simpa [← hn] using hr
      simp [this, hn]
    · simp [hn]

/-- The standard operators. -/
def standard : Registry :=
  [pipelineOperator, unrollOperator, tileOperator, partitionOperator, dataflowOperator].foldl
    register {}

/-- The operators with the names given, in their order, and then all others. -/
def ordered (r : Registry) (priority : List String) : List Operator :=
  priority.filterMap r.get? ++ r.operators.filter fun o => !priority.contains o.name

/-- Whether some operator applies to a region. -/
def appliesAnywhere (r : Registry) (a : Annotated) (id : RegionId) : Bool :=
  r.operators.any fun o => o.applies a id

example : standard.names = ["pipeline", "unroll", "tile", "partition", "dataflow"] := by decide

theorem mem_standard_iff {o : Operator} : o ∈ standard.operators ↔
    o = pipelineOperator ∨ o = unrollOperator ∨ o = tileOperator ∨ o = partitionOperator ∨
      o = dataflowOperator := by
  have hall : standard.operators =
      [pipelineOperator, unrollOperator, tileOperator, partitionOperator, dataflowOperator] := rfl
  simp [hall]

end Registry

end DesignSpace
