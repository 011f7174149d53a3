/-
  Subject:   WHAT A REPORT LISTS TWICE. Each parameter of a level belongs to one standard operator,
             and each operator has each of its parameters once. So the report of a level lists a
             parameter as often as its operator has its turn, which is more than once only where a
             target names an operator twice. No check of a target asks for that; only the reader of
             documents does.

  * `Parameter.operator`, `Registry.name_of_mem_targets`: the operator that a parameter belongs to;
  * `Registry.nodup_targets`, `count_targets`: how often an operator has a parameter;
  * `Explorer.count_assignment`: how often a parameter is listed;
  * `Explorer.listed_explore`: **the order of the operators, and what the reports list twice**;
  * `Repeated.listed_twice`: a target that passes all checks and has a parameter listed twice.
-/
import DesignSpace.Proofs.Search.Committed
import DesignSpace.Proofs.Search.Upfront

namespace DesignSpace

variable {spec : TargetSpec} {d : Design} {level : RegionId} {o : Operator} {p : Parameter}
  {a : Annotated}

/-! ## 1. Parameters and their operators -/

/-- The name of the standard operator that a parameter belongs to. -/
def Parameter.operator : Parameter → String
  | .pipeline _ => "pipeline"
  | .unroll _ => "unroll"
  | .tile _ => "tile"
  | .partition _ => "partition"
  | .dataflow _ => "dataflow"

namespace Registry

theorem name_of_mem_targets (ho : o ∈ standard.operators) (hp : p ∈ o.targets a level) :
    o.name = p.operator := by
  rcases mem_standard_iff.mp ho with rfl | rfl | rfl | rfl | rfl
  case inr.inr.inr.inl =>
    obtain ⟨_, _, rfl, -⟩ := partitionOperator.exists_array hp
    rfl
  all_goals
    obtain ⟨-, rfl⟩ := Operator.mem_targets_single hp
    rfl

/-- An operator has each of its parameters once: arrays have different names. -/
theorem nodup_targets (hc : a.design.check = .ok ()) (ho : o ∈ standard.operators)
    (level : RegionId) : (o.targets a level).Nodup := by
  have hsingle : ∀ {applies : Bool} {q : Parameter}, (if applies then [q] else []).Nodup := by
    intro applies q
    cases applies
    · exact List.nodup_nil
    · exact List.nodup_singleton q
  rcases mem_standard_iff.mp ho with rfl | rfl | rfl | rfl | rfl
  case inr.inr.inr.inl =>
    show (if partitionOperator.owns a level then
      (a.design.scopedTo level).map fun x => Parameter.partition x.name else []).Nodup
    split
    case isTrue =>
      have hnames := (Design.check_eq_ok_iff.mp hc).1
      have hscoped : ((a.design.scopedTo level).map ArrayDecl.name).Nodup :=
        hnames.sublist (List.filter_sublist.map ArrayDecl.name)
      have hpartitions := hscoped.map (f := Parameter.partition)
        fun _ _ h => Parameter.partition.inj h
      rwa [List.map_map] at hpartitions
    case isFalse => exact List.nodup_nil
  all_goals exact hsingle

/-- The operator that a parameter belongs to has it once, and no other one has it. -/
theorem count_targets (hc : a.design.check = .ok ()) (ho : o ∈ standard.operators)
    (hp : p ∈ o.targets a level) {x : Operator} (hx : x ∈ standard.operators) :
    (x.targets a level).count p = if x.name = p.operator then 1 else 0 := by
  by_cases hname : x.name = p.operator
  · obtain rfl : x = o := List.inj_on_of_nodup_map (nodup_ofList _) hx ho
      (hname.trans (name_of_mem_targets ho hp).symm)
    rw [if_pos hname]
    exact List.count_eq_one_of_mem (nodup_targets hc hx level) hp
  · rw [if_neg hname, List.count_eq_zero]
    exact fun hmem => hname (name_of_mem_targets hx hmem)

/-- Operators, one after the other, have a parameter as often as its operator is among them. -/
theorem count_flatMap_targets (hc : a.design.check = .ok ()) (ho : o ∈ standard.operators)
    (hp : p ∈ o.targets a level) {xs : List Operator} (hxs : ∀ x ∈ xs, x ∈ standard.operators) :
    (xs.flatMap fun x => x.targets a level).count p =
      (xs.map Operator.name).count p.operator := by
  induction xs with
  | nil => rfl
  | cons x xs ih =>
      obtain ⟨hx, hrest⟩ := List.forall_mem_cons.mp hxs
      rw [List.flatMap_cons, List.count_append, count_targets hc ho hp hx, ih hrest, List.map_cons,
        List.count_cons, Nat.add_comm]
      simp

end Registry

/-! ## 2. Reports -/

namespace Explorer

/-- The parameters of a level, in the order of the operators. -/
theorem map_parameter_assignment (hd : a.design.preorder.Nodup) (hc : a.design.check = .ok ())
    (level : RegionId) : ((new spec .standard).assignment a level).map Move.parameter =
      (new spec .standard).operators.flatMap fun o => o.targets a level := by
  rw [assignment, List.map_flatMap]
  refine List.flatMap_congr fun o ho => ?_
  rw [List.map_filterMap]
  -- no parameter is left out: each of them has a value
  refine (List.filterMap_congr fun p hp => ?_).trans List.filterMap_some
  obtain ⟨s, hs⟩ := (Registry.exact_of_mem_standard hd hc
    (Registry.mem_of_mem_ordered ho) hp).1.readable
  rw [hs]
  rfl

/-- **A level lists a parameter as often as its operator is named**, and once if it is not. -/
theorem count_assignment (hd : a.design.preorder.Nodup) (hc : a.design.check = .ok ()) {m : Move}
    (hm : m ∈ (new spec .standard).assignment a level) :
    (((new spec .standard).assignment a level).map Move.parameter).count m.parameter =
      max 1 (spec.options.priority.count m.operator) := by
  obtain ⟨o, ho, p, hp, s, -, rfl⟩ := mem_assignment_iff.mp hm
  have ho := Registry.mem_of_mem_ordered ho
  have hall : ∀ x ∈ (new spec .standard).operators, x ∈ Registry.standard.operators :=
    fun x => Registry.mem_of_mem_ordered
  rw [map_parameter_assignment hd hc]
  show List.count p _ = max 1 (spec.options.priority.count o.name)
  rw [Registry.count_flatMap_targets hc ho hp hall, ← Registry.name_of_mem_targets ho hp]
  exact Registry.count_ordered (Registry.nodup_ofList _) (List.mem_map_of_mem ho) _

variable {l : Listing} {t : Table} {report : SearchReport} {final : Annotated}

/-- **So does each report** of a search of the design of a listing. -/
theorem count_explore (hd : l.design = .ok d)
    (h : (new spec .standard).explore ⟨d, t⟩ = .ok (report, final)) :
    ∀ r ∈ report.levels, ∀ m ∈ r.moves, (r.moves.map Move.parameter).count m.parameter =
      max 1 (spec.options.priority.count m.operator) := by
  obtain ⟨start, v, summary, hstart, -, hcourse, -, -, -, rfl⟩ :=
    course_of_explore (Listing.nodup_of_design hd) h
  refine (hcourse.reports hstart ?_).1
  intro progress next level report hsound hs m hm
  have hsettled := (hsound.searched hs).sound.settled
  rw [moves_of_searchLevel hs] at hm ⊢
  exact count_assignment hsettled.complete.distinct hsettled.rules hm

/-- All operators that the options name are there, if nothing stops the search up front. -/
theorem mem_names_of_checkInput {x : Explorer} (h : x.checkInput = .ok ()) :
    ∀ s ∈ x.spec.options.priority, s ∈ x.registry.names := by
  obtain ⟨fault, -, herr⟩ | ⟨-, name, -, -, herr⟩ | ⟨-, hall, -⟩ := x.checkInput_cases
  · rw [h] at herr
    cases herr
  · rw [h] at herr
    cases herr
  · exact fun s hs => Decidable.byContradiction fun hnot =>
      hall s hs (Registry.get?_eq_none_iff.mpr hnot)

/-- **Operators take turns, and no report lists a parameter twice unless a name is repeated.** Take
    operators that are registered one after the other, and a target that passes all that is asked
    for before a search. Then they take turns as the target names them, each exactly once if and
    only if the target names none twice. In a search of the design of a listing with the standard
    operators, each report lists a parameter as often as its operator is named, and once if it is
    not; so it lists none twice if no name is repeated. -/
theorem listed_explore (spec : TargetSpec) :
    (∀ os : List Operator, (new spec (.ofList os)).checkInput = .ok () →
      (Registry.ofList os).Turns spec.options.priority
        ((Registry.ofList os).ordered spec.options.priority)) ∧
    ∀ (l : Listing) (d : Design) (t : Table) (report : SearchReport) (final : Annotated),
      l.design = .ok d → (new spec .standard).explore ⟨d, t⟩ = .ok (report, final) →
        ∀ r ∈ report.levels,
          (∀ m ∈ r.moves, (r.moves.map Move.parameter).count m.parameter =
            max 1 (spec.options.priority.count m.operator)) ∧
          (spec.options.priority.Nodup → (r.moves.map Move.parameter).Nodup) := by
  refine ⟨fun os hinput => ?_, fun l d t report final hd h r hr => ?_⟩
  · exact Registry.turns_ordered (Registry.nodup_ofList os) (mem_names_of_checkInput hinput)
  · have hcount := count_explore hd h r hr
    refine ⟨hcount, fun hnodup => List.nodup_iff_count_le_one.mpr fun p => ?_⟩
    by_cases hp : p ∈ r.moves.map Move.parameter
    · obtain ⟨m, hm, rfl⟩ := List.mem_map.mp hp
      have := List.nodup_iff_count_le_one.mp hnodup m.operator
      rw [hcount m hm]
      omega
    · rw [List.count_eq_zero.mpr hp]
      exact Nat.zero_le 1

/-- The search of two loops, with a target that names each standard operator once. -/
theorem listed_explore_smoothing :
    (new Smoothing.tight (.ofList Registry.standard.operators)).checkInput = .ok () ∧
      (Registry.ofList Registry.standard.operators).Turns Smoothing.tight.options.priority
        ((Registry.ofList Registry.standard.operators).ordered Smoothing.tight.options.priority) ∧
      Smoothing.listing.design = .ok Smoothing.design ∧ ∃ report final,
        (new Smoothing.tight .standard).explore ⟨Smoothing.design, .empty⟩ = .ok (report, final) ∧
        report.levels ≠ [] ∧
        Smoothing.tight.options.priority.Nodup ∧
        ∀ r ∈ report.levels, (r.moves.map Move.parameter).Nodup := by
  obtain ⟨report, final, hreport, hlevels, -⟩ := Smoothing.explore_tight
  have hinput :
      (new Smoothing.tight (.ofList Registry.standard.operators)).checkInput = .ok () := by
    decide +kernel
  have hnodup : Smoothing.tight.options.priority.Nodup := by decide
  exact ⟨hinput, (listed_explore Smoothing.tight).1 _ hinput, Smoothing.design_listing, report,
    final, hreport, hlevels, hnodup, fun r hr => ((listed_explore Smoothing.tight).2 _ _ _ _ _
      Smoothing.design_listing hreport r hr).2 hnodup⟩

end Explorer

namespace Repeated

/-- A function of one loop. -/
def listing : Listing where
  name := "repeated"
  records :=
    [⟨⟨0, .func { name := "top" }, none⟩, none⟩,
     ⟨⟨1, .loop { iv := "i", trip := .static 4 }, none⟩, some 0⟩,
     ⟨⟨2, .block { ops := [⟨.add, 32⟩] }, none⟩, some 1⟩]
  arrays := []

/-- The function as a tree. -/
def design : Design where
  name := "repeated"
  root := ⟨0, .func { name := "top" }, none⟩
  below :=
    .cons ⟨1, .loop { iv := "i", trip := .static 4 }, none⟩
      (.cons ⟨2, .block { ops := [⟨.add, 32⟩] }, none⟩ .nil .nil) .nil
  arrays := []

/-- A target that names an operator twice. -/
def twice : TargetSpec where
  options := { priority := ["pipeline", "pipeline"] }

theorem design_listing : listing.design = .ok design := by decide +kernel

/-- **An operator that is named twice has two turns**, although the target passes all checks and
    names only operators that are there; and the report of the loop lists its parameter twice. -/
theorem listed_twice : listing.design = .ok design ∧
    (Explorer.new twice .standard).checkInput = .ok () ∧
    (Registry.standard.ordered twice.options.priority).map Operator.name =
      ["pipeline", "pipeline", "unroll", "tile", "partition", "dataflow"] ∧
    ¬ (Registry.standard.ordered twice.options.priority).Perm Registry.standard.operators ∧
    ∃ report final r,
      (Explorer.new twice .standard).explore ⟨design, .empty⟩ = .ok (report, final) ∧
      r ∈ report.levels ∧ r.region = 1 ∧
      r.moves.map Move.parameter = [.pipeline 1, .pipeline 1, .unroll 1, .tile 1] ∧
      ¬ (r.moves.map Move.parameter).Nodup := by
  have hinput : (Explorer.new twice .standard).checkInput = .ok () := by decide +kernel
  obtain ⟨report, final, hreport, heq⟩ := Explorer.exists_report_eq
    (x := Explorer.new twice .standard) (a := ⟨design, .empty⟩)
    (c := some (1, [.pipeline 1, .pipeline 1, .unroll 1, .tile 1]))
    (fun r => r.levels.head?.map fun r => (r.region, r.moves.map Move.parameter))
    (by decide +kernel)
  obtain ⟨r, hr, hmoves⟩ := Option.map_eq_some_iff.mp heq
  obtain ⟨hregion, hmoves⟩ := Prod.mk.inj hmoves
  refine ⟨design_listing, hinput, by decide +kernel, fun hperm => ?_, report, final, r, hreport,
    List.mem_of_head? hr, hregion, hmoves, ?_⟩
  · exact absurd hperm.length_eq (by decide +kernel)
  · rw [hmoves]
    decide

end Repeated

end DesignSpace
