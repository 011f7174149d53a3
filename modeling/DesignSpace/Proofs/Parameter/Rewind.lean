/-
  Subject:   CHANGES TAKEN BACK IN REVERSE ORDER. Whatever was set in a session, the changes taken
             back from the last to the first give the design from before, with its estimates.

  * `Design.Rewinds`: a list of changes leads back to a design;
  * `Session.keeps_run`: what every action keeps that takes nothing back;
  * `Session.rewinds_step`: after one more action they still lead back;
  * `Annotated.rewind`: changes taken back in a row, with refreshes between them;
  * `Session.rewind_run`: **a session rewound gives the design from before, as far as rules, values
    and estimates tell.**
-/
import DesignSpace.Proofs.Parameter.Overwrite
import DesignSpace.Proofs.Parameter.Session

namespace DesignSpace

/-! ## 1. The way back -/

/-- **The way back**: the previous values of some changes, the last change first, can be written one
    after the other, and what this ends with is like the design `start`. -/
def Design.Rewinds (start : Design) : List Change → Design → Prop
  | [], d => start.Alike d
  | c :: cs, d => ∃ d', d.write c.parameter c.previous = .ok d' ∧ Rewinds start cs d'

namespace Design

variable {start d d' : Design} {cs : List Change} {p : Parameter} {s previous : Setting}

/-- From a design that is alike there is the same way back. -/
theorem Rewinds.ofAlike (h : start.Rewinds cs d) (hd : d.Alike d') : start.Rewinds cs d' := by
  induction cs generalizing d d' with
  | nil => exact Alike.trans h hd
  | cons c cs ih =>
      obtain ⟨e, he, hrest⟩ := h
      obtain ⟨e', he', halike⟩ := hd.exists_write he
      exact ⟨e', he', ih hrest halike⟩

/-- **One more write** is one more step on the way back. -/
theorem Rewinds.write (h : start.Rewinds cs d) (hd : d.preorder.Nodup)
    (hprevious : d.setting p = .ok previous) (hw : d.write p s = .ok d') :
    start.Rewinds (⟨p, previous⟩ :: cs) d' := by
  obtain ⟨back, hback, halike⟩ := write_previous hd hprevious hw
  exact ⟨back, hback, h.ofAlike halike⟩

end Design

/-! ## 2. Sessions -/

/-- Whether an action takes a change back. -/
def Action.isUndo : Action → Bool
  | .undo _ => true
  | _ => false

namespace Session

variable {e : Estimator} {x : Session} {start : Design}

/-- **What every action keeps that takes nothing back**, a session of such actions keeps; and the
    regions stay. -/
theorem keeps_run {P : Session → Prop}
    (step : ∀ {x : Session}, x.annotated.design.preorder.Nodup → P x → ∀ {action : Action},
      action.isUndo = false → P (x.step e action))
    {actions : List Action} (hd : x.annotated.design.preorder.Nodup) (h : P x)
    (ha : ∀ action ∈ actions, action.isUndo = false) :
    (x.run e actions).annotated.design.preorder.Nodup ∧ P (x.run e actions) := by
  unfold run
  induction actions generalizing x with
  | nil => exact ⟨hd, h⟩
  | cons action actions ih =>
      have hpre := preorder_step (e := e) hd action
      exact ih (hpre ▸ hd) (step hd h (ha action List.mem_cons_self))
        fun b hb => ha b (List.mem_cons_of_mem _ hb)

/-- **One action** that takes nothing back leaves a way back. -/
theorem rewinds_step (hd : x.annotated.design.preorder.Nodup)
    (h : start.Rewinds x.changes.reverse x.annotated.design) {action : Action}
    (ha : action.isUndo = false) :
    start.Rewinds (x.step e action).changes.reverse (x.step e action).annotated.design := by
  cases action with
  | undo _ => cases ha
  | refresh =>
      show start.Rewinds _ (e.refresh x.annotated).2.design
      rw [e.design_refresh]
      exact h
  | set p s =>
      show start.Rewinds (x.set p s).changes.reverse (x.set p s).annotated.design
      unfold set
      obtain ⟨_, hset⟩ | ⟨previous, d, hprevious, hw, -, hset⟩ | ⟨_, _, back, _, _, halike, hset⟩ :=
        x.annotated.set_cases hd p s
      · rw [hset]
        exact h
      · rw [hset]
        dsimp only
        rw [List.reverse_append]
        exact h.write hd hprevious hw
      · rw [hset]
        exact h.ofAlike halike

theorem rewinds_run {actions : List Action} (hd : x.annotated.design.preorder.Nodup)
    (h : start.Rewinds x.changes.reverse x.annotated.design)
    (ha : ∀ action ∈ actions, action.isUndo = false) :
    start.Rewinds (x.run e actions).changes.reverse (x.run e actions).annotated.design :=
  (keeps_run (P := fun x => start.Rewinds x.changes.reverse x.annotated.design) rewinds_step hd h
    ha).2

end Session

/-! ## 3. Rewinding -/

/-- Changes taken back one after the other. Where `none` stands in their place, the missing
    estimates are made. -/
def Annotated.rewind (e : Estimator) (a : Annotated) (steps : List (Option Change)) :
    Except ChangeError Annotated :=
  steps.foldlM (fun a step =>
    match step with
    | some change => a.undo change
    | none => .ok (e.refresh a).2) a

namespace Annotated

variable {e : Estimator} {a : Annotated} {start : Design}

/-- **The way back, gone to its end**, leaves a design that is like the first one, and a table that
    is up to date. -/
theorem exists_rewind {steps : List (Option Change)} (h : a.UpToDate e)
    (hway : start.Rewinds (steps.filterMap id) a.design) :
    ∃ b, a.rewind e steps = .ok b ∧ b.UpToDate e ∧ start.Alike b.design := by
  unfold rewind
  induction steps generalizing a with
  | nil => exact ⟨a, rfl, h, hway⟩
  | cons step steps ih =>
      rw [List.foldlM_cons]
      cases step with
      | none =>
          have hsame := e.design_refresh a
          exact ih h.complete_refresh.upToDate (hsame.symm ▸ hway)
      | some change =>
          obtain ⟨d, hd, hrest⟩ := hway
          have hundo : a.undo change = .ok _ := undo_eq_ok_iff.mpr ⟨d, hd, rfl⟩
          obtain ⟨b, hb, hup, halike⟩ := ih (h.undo hundo) hrest
          exact ⟨b, Attempt.bind_eq_ok_iff.mpr ⟨_, hundo, hb⟩, hup, halike⟩

end Annotated

/-- **A session rewound.** Take the design of a listing with all its estimates, and set parameters
    to any values, with or without success, with refreshes anywhere between. Then all changes that
    were made can be taken back from the last to the first, again with refreshes anywhere between;
    and this gives a design that keeps the rules, in which every parameter has the value that it had
    at first, or has none for the same reason, and whose table after a refresh is the first one. -/
theorem Session.rewind_run {l : Listing} {d : Design} (hd : l.design = .ok d) (e : Estimator)
    (t : Table) :
    ∃ summary start, e.run ⟨d, t⟩ = .ok (summary, start) ∧ ∀ actions : List Action,
      (∀ action ∈ actions, action.isUndo = false) →
      ∀ steps : List (Option Change),
        steps.filterMap id = (Session.run e ⟨start, []⟩ actions).changes.reverse →
        ∃ b, (Session.run e ⟨start, []⟩ actions).annotated.rewind e steps = .ok b ∧
          b.design.check = .ok () ∧ (∀ p, b.design.setting p = d.setting p) ∧
            (e.refresh b).2.table = start.table := by
  have hdistinct := Listing.nodup_of_design hd
  have hc := (Listing.tree_of_design hd).2
  have hrun : e.run ⟨d, t⟩ = .ok (_, _) := Estimator.run_eq_ok_iff.mpr ⟨hc, rfl, rfl⟩
  obtain ⟨hstart, hdesign⟩ := Estimator.complete_run (a := ⟨d, t⟩) hdistinct hrun
  refine ⟨_, _, hrun, fun actions hactions steps hsteps => ?_⟩
  generalize (e.refresh ⟨d, .empty⟩).2 = start at hstart hdesign hsteps ⊢
  obtain ⟨c, u⟩ := start
  obtain rfl : c = d := hdesign
  obtain ⟨hup, -⟩ := @upToDate_run e ⟨⟨c, u⟩, []⟩ hstart.upToDate actions
  have hway := @rewinds_run e ⟨⟨c, u⟩, []⟩ c actions hdistinct (.refl c) hactions
  rw [← hsteps] at hway
  obtain ⟨b, hb, hlast, halike⟩ := Annotated.exists_rewind hup hway
  refine ⟨b, hb, halike.check hc, halike.setting_eq, ?_⟩
  have hsame : (⟨b.design, u⟩ : Annotated) = (e.refresh b).2 :=
    (hstart.ofAlike halike).eq hlast.complete_refresh (e.design_refresh b).symm
  exact (congrArg Annotated.table hsame).symm

/-- Tiles and unrolling of one loop set in turns, the tile twice, and banks: all of it rewound, with
    a refresh on the way. -/
theorem Session.rewind_run_smoothing : Smoothing.listing.design = .ok Smoothing.design ∧
    ∃ summary start,
      (Estimator.new none {}).run ⟨Smoothing.design, .empty⟩ = .ok (summary, start) ∧
      ∃ b, (Session.run (Estimator.new none {}) ⟨start, []⟩
          [.set (.tile 1) (.factor 4), .refresh, .set (.unroll 1) (.factor 4),
            .set (.tile 1) (.factor 16), .set (.partition "y") (.factor 2)]).annotated.rewind
          (Estimator.new none {})
          [some ⟨.partition "y", .factor 1⟩, some ⟨.tile 1, .factor 4⟩, none,
            some ⟨.unroll 1, .factor 2⟩, some ⟨.tile 1, .factor 8⟩] = .ok b ∧
        b.design.check = .ok () ∧ b.design.setting (.tile 1) = .ok (.factor 8) ∧
          ((Estimator.new none {}).refresh b).2.table = start.table := by
  obtain ⟨summary, start, hrun, h⟩ :=
    Session.rewind_run Smoothing.design_listing (Estimator.new none {}) .empty
  obtain ⟨-, hstart, -⟩ := Estimator.run_eq_ok_iff.mp hrun
  obtain ⟨b, hb, hc, hsettings, htable⟩ := h
    [.set (.tile 1) (.factor 4), .refresh, .set (.unroll 1) (.factor 4),
      .set (.tile 1) (.factor 16), .set (.partition "y") (.factor 2)] (by decide)
    [some ⟨.partition "y", .factor 1⟩, some ⟨.tile 1, .factor 4⟩, none,
      some ⟨.unroll 1, .factor 2⟩, some ⟨.tile 1, .factor 8⟩] (by rw [hstart]; decide +kernel)
  exact ⟨Smoothing.design_listing, summary, start, hrun, b, hb, hc, hsettings _, htable⟩

end DesignSpace
