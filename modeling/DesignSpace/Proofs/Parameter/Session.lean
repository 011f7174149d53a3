/-
  Subject:   SESSIONS: parameters changed, changes taken back and estimates refreshed, in any order.
             Estimates that are kept up to date are the ones made anew.

  * `Action`, `Session`: what can be done to a design with its table, and the changes so far;
  * `Session.upToDate_step`: no action leaves an entry that is wrong, or one above a missing one;
  * `Session.refresh_run_eq`: **after any session a refresh gives what estimating everything anew
    gives.**
-/
import DesignSpace.Proofs.Design.Distinct
import DesignSpace.Proofs.Parameter.Stale

namespace DesignSpace

/-! ## 1. Actions -/

/-- One action: a parameter set to a value, a change taken back that was made earlier (by its place
    among the changes), or the missing estimates made. -/
inductive Action where
  | set (parameter : Parameter) (setting : Setting)
  | undo (place : Nat)
  | refresh
deriving DecidableEq, Repr

/-- A design with its table, and the changes that were made so far, the first one first. -/
structure Session where
  annotated : Annotated
  changes : List Change := []
deriving DecidableEq, Repr

namespace Session

/-- A parameter set. A change that succeeds can be taken back later. -/
def set (x : Session) (p : Parameter) (s : Setting) : Session :=
  match x.annotated.set p s with
  | (.ok change, a) => ⟨a, x.changes ++ [change]⟩
  | (.error _, a) => ⟨a, x.changes⟩

/-- A change taken back. Without such a change nothing happens. -/
def undo (x : Session) (place : Nat) : Session :=
  match x.changes[place]? with
  | none => x
  | some change =>
    match x.annotated.undo change with
    | .ok a => ⟨a, x.changes⟩
    | .error _ => x

/-- A session after one more action. -/
def step (e : Estimator) (x : Session) : Action → Session
  | .set p s => x.set p s
  | .undo place => x.undo place
  | .refresh => ⟨(e.refresh x.annotated).2, x.changes⟩

/-- A session after some actions. -/
def run (e : Estimator) (x : Session) (actions : List Action) : Session := actions.foldl (step e) x

variable {e : Estimator} {x : Session}

/-! ## 2. What an action keeps -/

theorem annotated_set (x : Session) (p : Parameter) (s : Setting) :
    (x.set p s).annotated = (x.annotated.set p s).2 := by
  unfold set
  rcases x.annotated.set p s with ⟨_ | change, a⟩ <;> rfl

/-- Where a change is taken back, the design of the session is what `Annotated.undo` makes of it. -/
theorem annotated_undo (x : Session) (place : Nat) :
    (x.undo place).annotated = x.annotated ∨
      ∃ change, x.annotated.undo change = .ok (x.undo place).annotated := by
  unfold undo
  cases x.changes[place]? with
  | none => exact .inl rfl
  | some change =>
      dsimp only
      cases hu : x.annotated.undo change with
      | error err => exact .inl rfl
      | ok a => exact .inr ⟨change, hu⟩

/-- **One action** leaves the table up to date. -/
theorem upToDate_step (h : x.annotated.UpToDate e) (action : Action) :
    (x.step e action).annotated.UpToDate e := by
  cases action with
  | set p s =>
      show (x.set p s).annotated.UpToDate e
      rw [annotated_set]
      exact h.set p s
  | undo place =>
      rcases annotated_undo x place with heq | ⟨change, hu⟩
      · show (x.undo place).annotated.UpToDate e
        rw [heq]
        exact h
      · exact h.undo hu
  | refresh => exact h.complete_refresh.upToDate

/-- **One action** leaves the regions as they are. -/
theorem preorder_step (h : x.annotated.design.preorder.Nodup) (action : Action) :
    (x.step e action).annotated.design.preorder = x.annotated.design.preorder := by
  cases action with
  | set p s =>
      show (x.set p s).annotated.design.preorder = _
      rw [annotated_set]
      exact Design.preorder_of_bare (Design.forest_of_bare (Annotated.bare_set _ h p s))
  | undo place =>
      rcases annotated_undo x place with heq | ⟨change, hu⟩
      · exact congrArg (fun a => a.design.preorder) heq
      · exact Design.preorder_of_bare (Design.forest_of_bare (Annotated.bare_undo hu))
  | refresh => exact congrArg Design.preorder (e.design_refresh x.annotated)

/-- A whole session leaves the table up to date and the regions as they are. -/
theorem upToDate_run (h : x.annotated.UpToDate e) (actions : List Action) :
    (x.run e actions).annotated.UpToDate e ∧
      (x.run e actions).annotated.design.preorder = x.annotated.design.preorder := by
  unfold run
  induction actions generalizing x with
  | nil => exact ⟨h, rfl⟩
  | cons action actions ih =>
      obtain ⟨hrun, hpre⟩ := ih (upToDate_step h action)
      exact ⟨hrun, hpre.trans (preorder_step h.distinct action)⟩

/-! ## 3. Sessions -/

/-- **Estimates kept up to date are those made anew.** After a run on the design of a listing, and
    any actions, every entry of the table is the one made anew, no region with an entry lies above
    one without, and a refresh leaves entries for exactly the regions of the design, all as if the
    table had been emptied before it. -/
theorem refresh_run_eq {l : Listing} {d : Design} (hd : l.design = .ok d) (e : Estimator)
    (t : Table) :
    ∃ summary start, e.run ⟨d, t⟩ = .ok (summary, start) ∧ ∀ actions : List Action,
      let a := (Session.run e ⟨start, []⟩ actions).annotated
      e.refresh a = e.refresh { a with table := .empty } ∧
      (∀ id, ((e.refresh a).2.table.get? id).isSome ↔ id ∈ d.preorder) ∧
      (∀ id m, a.table.get? id = some m →
        (e.refresh { a with table := .empty }).2.table.get? id = some m) ∧
      ∀ id, a.table.get? id = none → ∀ j ∈ a.design.ancestors id, a.table.get? j = none := by
  have hdistinct := Listing.nodup_of_design hd
  have hrun : e.run ⟨d, t⟩ = .ok ((e.refresh ⟨d, .empty⟩).2.summary, (e.refresh ⟨d, .empty⟩).2) :=
    Estimator.run_eq_ok_iff.mpr ⟨(Listing.tree_of_design hd).2, rfl, rfl⟩
  obtain ⟨hstart, hdesign⟩ := @Estimator.complete_run e ⟨d, t⟩ _ _ hdistinct hrun
  refine ⟨_, _, hrun, fun actions => ?_⟩
  intro a
  obtain ⟨ha, hpre⟩ := @upToDate_run e ⟨_, []⟩ hstart.upToDate actions
  have hregions : a.design.preorder = d.preorder := hpre.trans (congrArg Design.preorder hdesign)
  refine ⟨ha.refresh_eq, fun id => ?_, fun id m hm => ?_, ha.closed⟩
  · rw [ha.complete_refresh.full, e.design_refresh, Estimator.estimate?_isSome_iff]
    rw [hregions]
  · rw [← ha.refresh_eq, ha.complete_refresh.full, e.design_refresh]
    exact ha.right id m hm

/-- A tile set, unrolling refused, banks added and the tile taken back: the table is as good as new
    at the end. -/
theorem refresh_run_smoothing :
    Smoothing.listing.design = .ok Smoothing.design ∧
      ∃ summary start,
        (Estimator.new none {}).run ⟨Smoothing.design, .empty⟩ = .ok (summary, start) ∧
        ∃ a, (Session.run (Estimator.new none {}) ⟨start, []⟩
            [.set (.tile 1) (.factor 4), .set (.unroll 1) (.factor 16), .refresh,
              .set (.partition "y") (.factor 2), .undo 0]).annotated = a ∧
          (Estimator.new none {}).refresh a =
            (Estimator.new none {}).refresh { a with table := .empty } := by
  refine ⟨Smoothing.design_listing, ?_⟩
  obtain ⟨summary, start, hrun, h⟩ :=
    Session.refresh_run_eq Smoothing.design_listing (Estimator.new none {}) .empty
  exact ⟨summary, start, hrun, _, rfl, (h _).1⟩

end Session

end DesignSpace
