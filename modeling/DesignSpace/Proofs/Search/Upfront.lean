/-
  Subject:   WHAT STOPS A SEARCH. It fails before it looks at the design or not at all; no change
             that was tried is ever one that cannot be taken back.

  * `Session.check_run`: what is set in a session keeps the rules;
  * `Explorer.checkInput_cases`: a target that is at fault, an operator that is not there, or
    neither;
  * `Explorer.search_run`: **a search that fails leaves the design and its table as they are**, and
    one that does not fail is done.
-/
import DesignSpace.Proofs.Parameter.Rewind
import DesignSpace.Proofs.Search.Explore

namespace DesignSpace

/-! ## 1. Designs that are searched -/

namespace Session

variable {e : Estimator} {x : Session}

/-- **One action** that takes nothing back leaves a design that keeps the rules. -/
theorem check_step (hd : x.annotated.design.preorder.Nodup)
    (hc : x.annotated.design.check = .ok ()) {action : Action} (ha : action.isUndo = false) :
    (x.step e action).annotated.design.check = .ok () := by
  cases action with
  | undo _ => cases ha
  | refresh =>
      show (e.refresh x.annotated).2.design.check = .ok ()
      rw [e.design_refresh]
      exact hc
  | set p s =>
      show (x.set p s).annotated.design.check = .ok ()
      rw [annotated_set]
      obtain ⟨_, hset⟩ | ⟨_, _, -, -, hkeeps, hset⟩ | ⟨_, _, _, -, -, halike, hset⟩ :=
        x.annotated.set_cases hd p s
      · rw [hset]
        exact hc
      · rw [hset]
        exact hkeeps
      · rw [hset]
        exact halike.check hc

/-- Actions that take nothing back leave a design that keeps the rules, with its regions. -/
theorem check_run {actions : List Action} (hd : x.annotated.design.preorder.Nodup)
    (hc : x.annotated.design.check = .ok ()) (ha : ∀ action ∈ actions, action.isUndo = false) :
    (x.run e actions).annotated.design.preorder.Nodup ∧
      (x.run e actions).annotated.design.check = .ok () :=
  keeps_run (P := fun x => x.annotated.design.check = .ok ()) check_step hd hc ha

end Session

/-! ## 2. What is asked for up front -/

namespace Explorer

variable {x : Explorer}

/-- **What is asked for up front**: the target is at fault; an operator that the options name is not
    there; or neither is so. -/
theorem checkInput_cases (x : Explorer) :
    (∃ fault, x.spec.check = .error fault ∧ x.checkInput = .error (.target fault)) ∨
    (x.spec.check = .ok () ∧ ∃ name ∈ x.spec.options.priority, x.registry.get? name = none ∧
      x.checkInput = .error (.unknownOperator name)) ∨
    (x.spec.check = .ok () ∧ (∀ name ∈ x.spec.options.priority, x.registry.get? name ≠ none) ∧
      x.checkInput = .ok ()) := by
  unfold checkInput checkPriority
  cases hs : x.spec.check with
  | error fault => exact .inl ⟨fault, rfl, rfl⟩
  | ok _ =>
      cases hp : x.spec.options.priority.find? fun s => (x.registry.get? s).isNone with
      | some name =>
          have hname : x.registry.get? name = none :=
            Option.isNone_iff_eq_none.mp (List.find?_some hp :)
          exact .inr (.inl ⟨rfl, name, List.mem_of_find?_eq_some hp, hname, rfl⟩)
      | none =>
          refine .inr (.inr ⟨rfl, fun name hmem hname => ?_, rfl⟩)
          exact List.find?_eq_none.mp hp name hmem (Option.isNone_iff_eq_none.mpr hname)

/-! ## 3. The search -/

variable {spec : TargetSpec} {registry : Registry} {a : Annotated}

/-- **All that a search of a design that keeps the rules can do**: stop before it starts, or come to
    its end. -/
theorem search_cases (hd : a.design.preorder.Nodup) (hc : a.design.check = .ok ()) :
    (∃ fault, spec.check = .error fault ∧
      (new spec registry).search a = ⟨.error (.target fault), a, .initializing⟩) ∨
    (∃ name ∈ spec.options.priority, registry.get? name = none ∧
      (new spec registry).search a = ⟨.error (.unknownOperator name), a, .initializing⟩) ∨
    (spec.check = .ok () ∧ (∀ name ∈ spec.options.priority, registry.get? name ≠ none) ∧
      ∃ report final, (new spec registry).search a = ⟨.ok report, final, .done⟩) := by
  obtain ⟨fault, hs, hinput⟩ | ⟨-, name, hmem, hname, hinput⟩ | ⟨hs, hall, hinput⟩ :=
    (new spec registry).checkInput_cases
  · exact .inl ⟨fault, hs, search_of_input hinput⟩
  · exact .inr (.inl ⟨name, hmem, hname, search_of_input hinput⟩)
  · obtain ⟨v, summary, final, -, -, -, hexplore, -⟩ := @explore_total spec registry a.design
      hd a.table hs (checkInput_eq_ok_iff.mp hinput).2 hc
    obtain ⟨-, -, -, -, last, -, -, -, -, hsearch⟩ :=
      exists_visit_of_search (explore_eq_ok_iff.mp hexplore).1
    exact .inr (.inr ⟨hs, hall, _, last, hsearch⟩)

/-- How far a search came can be told from its outcome. -/
theorem phase_search (hd : a.design.preorder.Nodup) (hc : a.design.check = .ok ()) :
    ((new spec registry).search a).phase = .ofOutcome ((new spec registry).explore a) := by
  unfold explore
  obtain ⟨_, -, h⟩ | ⟨_, -, -, h⟩ | ⟨-, -, _, _, h⟩ := @search_cases spec registry a hd hc <;>
    · rw [h]
      rfl

/-- **A search fails up front or not at all.** Take the design of a listing with any table, and set
    parameters to any values, with or without success, with refreshes anywhere between. Then a
    search with any target and any operators fails exactly if the target breaks its rules or the
    options name an operator that is not there. It says so, leaves the design and its table as they
    are, and has not started. If it does not fail, it has a report and is done. -/
theorem search_run {l : Listing} {d : Design} (hd : l.design = .ok d) (e : Estimator) (t : Table)
    {actions : List Action} (hactions : ∀ action ∈ actions, action.isUndo = false)
    (spec : TargetSpec) (registry : Registry) :
    let a := (Session.run e ⟨⟨d, t⟩, []⟩ actions).annotated
    let ending := (new spec registry).search a
    ((∃ err, ending.outcome = .error err) ↔
      spec.check ≠ .ok () ∨ ∃ name ∈ spec.options.priority, registry.get? name = none) ∧
    (∀ err, ending.outcome = .error err → ending.annotated = a ∧ ending.phase = .initializing ∧
      ((∃ fault, spec.check = .error fault ∧ err = .target fault) ∨
        ∃ name ∈ spec.options.priority, registry.get? name = none ∧
          err = .unknownOperator name)) ∧
    ∀ report, ending.outcome = .ok report → ending.phase = .done := by
  intro a
  obtain ⟨hdistinct, hc⟩ := @Session.check_run e ⟨⟨d, t⟩, []⟩ actions
    (Listing.nodup_of_design hd) (Listing.tree_of_design hd).2 hactions
  have hcases := @search_cases spec registry a hdistinct hc
  generalize (new spec registry).search a = ending at hcases ⊢
  obtain ⟨fault, hs, rfl⟩ | ⟨name, hmem, hname, rfl⟩ | ⟨hs, hall, report, final, rfl⟩ := hcases
  · -- the target breaks its rules
    have hfault : spec.check ≠ .ok () := fun hok => absurd (hs.symm.trans hok) nofun
    refine ⟨⟨fun _ => .inl hfault, fun _ => ⟨_, rfl⟩⟩, fun err herr => ?_, nofun⟩
    obtain rfl := Except.error.inj herr
    exact ⟨rfl, rfl, .inl ⟨fault, hs, rfl⟩⟩
  · -- an operator is not there
    refine ⟨⟨fun _ => .inr ⟨name, hmem, hname⟩, fun _ => ⟨_, rfl⟩⟩, fun err herr => ?_, nofun⟩
    obtain rfl := Except.error.inj herr
    exact ⟨rfl, rfl, .inr ⟨name, hmem, hname, rfl⟩⟩
  · -- nothing stops the search
    refine ⟨⟨nofun, fun hfails => ?_⟩, nofun, fun _ _ => rfl⟩
    rcases hfails with hfault | ⟨name, hmem, hname⟩
    · exact absurd hs hfault
    · exact absurd hname (hall name hmem)

/-- A tile set, unrolling refused, and a search: it is done, or, where an operator is asked for that
    is not there, leaves what was set. -/
theorem search_run_smoothing : Smoothing.listing.design = .ok Smoothing.design ∧
    ∃ a, (Session.run (Estimator.new none {}) ⟨⟨Smoothing.design, .empty⟩, []⟩
        [.set (.tile 1) (.factor 4), .refresh, .set (.unroll 1) (.factor 16)]).annotated = a ∧
      ((new Smoothing.tight .standard).search a).phase = .done ∧
      ((new { options := { priority := ["tile", "fuse"] } } .standard).search a).annotated = a := by
  have hactions : ∀ action ∈ [Action.set (.tile 1) (.factor 4), .refresh,
      .set (.unroll 1) (.factor 16)], action.isUndo = false := by decide
  refine ⟨Smoothing.design_listing, _, rfl, ?_, ?_⟩
  · obtain ⟨hfails, -, hdone⟩ := search_run Smoothing.design_listing (Estimator.new none {}) .empty
      hactions Smoothing.tight .standard
    cases houtcome : ((new Smoothing.tight .standard).search _).outcome with
    | ok report => exact hdone report houtcome
    | error err =>
        have hall : ∀ name ∈ Smoothing.tight.options.priority,
            (Registry.standard.get? name).isSome = true := by decide
        rcases hfails.mp ⟨err, houtcome⟩ with hfault | ⟨name, hmem, hname⟩
        · exact absurd rfl hfault
        · have hsome := hall name hmem
          rw [hname] at hsome
          cases hsome
  · obtain ⟨hfails, hleft, -⟩ := search_run Smoothing.design_listing (Estimator.new none {}) .empty
      hactions { options := { priority := ["tile", "fuse"] } } .standard
    obtain ⟨err, houtcome⟩ := hfails.mpr (.inr ⟨"fuse", by decide, rfl⟩)
    exact (hleft err houtcome).1

end Explorer

end DesignSpace
