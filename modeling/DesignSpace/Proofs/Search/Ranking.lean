/-
  Subject:   THE RANKING OF CANDIDATES. A candidate has a rank: the lowest one if it fits, else the
             place of its overshoot among the doubles. Lower ranks are better, and of equal ranks
             the faster candidate is. Where the overshoots are numbers this is a strict order.

  * `Candidate.rank`, `Candidate.improvesOn_iff`: **being better is a matter of rank and speed**;
  * `Candidate.improvesOn_irrefl`, `improvesOn_asymm`, `improvesOn_transitive`: the order.
-/
import DesignSpace.Proofs.Decimal.Order
import DesignSpace.Proofs.Search.Resting

namespace DesignSpace.Candidate

variable {a b c : Candidate}

/-- A candidate whose overshoot is a number. -/
def Numbered (c : Candidate) : Prop := c.overshoot.isNaN = false

/-- The rank of a candidate: what fits comes before what does not, whatever is said of its
    overshoot. -/
def rank (c : Candidate) : WithBot Double.Place :=
  if c.feasible then ⊥ else (Double.place c.overshoot : WithBot Double.Place)

theorem rank_of_feasible (h : c.feasible = true) : c.rank = ⊥ := if_pos h

theorem rank_of_not_feasible (h : c.feasible = false) : c.rank = Double.place c.overshoot :=
  if_neg (by rw [h]; exact Bool.false_ne_true)

/-- **Being better is a matter of rank and speed.** -/
theorem improvesOn_iff (ha : a.Numbered) (hb : b.Numbered) :
    a.improvesOn b = true ↔ a.rank < b.rank ∨ a.rank = b.rank ∧ a.fasterThan b = true := by
  unfold improvesOn
  cases hfa : a.feasible <;> cases hfb : b.feasible
  case true.true => simp [rank_of_feasible hfa, rank_of_feasible hfb]
  case true.false =>
    simp [rank_of_feasible hfa, rank_of_not_feasible hfb, WithBot.bot_lt_coe]
  case false.true => simp [rank_of_not_feasible hfa, rank_of_feasible hfb]
  case false.false =>
    rw [rank_of_not_feasible hfa, rank_of_not_feasible hfb, WithBot.coe_lt_coe, WithBot.coe_inj]
    have hab := Double.lt_iff ha hb
    have hba : a.overshoot > b.overshoot ↔ _ := Double.lt_iff hb ha
    dsimp only
    rcases lt_trichotomy (Double.place a.overshoot) (Double.place b.overshoot) with h | h | h
    · rw [if_pos (hab.mpr h)]
      simp [h]
    · rw [if_neg (fun hlt => (hab.mp hlt).ne h), if_neg (fun hlt => (hba.mp hlt).ne' h)]
      simp [h]
    · rw [if_neg (fun hlt => (hab.mp hlt).not_gt h), if_pos (hba.mpr h)]
      simp [h.not_gt, h.ne']

/-- Nothing is better than itself. -/
theorem improvesOn_irrefl (ha : a.Numbered) : a.improvesOn a = false := by
  rw [Bool.eq_false_iff, ne_eq, improvesOn_iff ha ha]
  rintro (hlt | ⟨-, hfaster⟩)
  · exact lt_irrefl _ hlt
  · rw [a.not_fasterThan_self] at hfaster
    cases hfaster

/-- **What is better than something better is better**, also where the budgets are not kept. -/
theorem improvesOn_transitive (ha : a.Numbered) (hb : b.Numbered) (hc : c.Numbered)
    (hab : a.improvesOn b = true) (hbc : b.improvesOn c = true) : a.improvesOn c = true := by
  rw [improvesOn_iff ha hb] at hab
  rw [improvesOn_iff hb hc] at hbc
  rw [improvesOn_iff ha hc]
  rcases hab with hlt | ⟨heq, hfaster⟩ <;> rcases hbc with hlt' | ⟨heq', hfaster'⟩
  · exact .inl (hlt.trans hlt')
  · exact .inl (heq' ▸ hlt)
  · exact .inl (heq ▸ hlt')
  · exact .inr ⟨heq.trans heq', fasterThan_trans hfaster hfaster'⟩

/-- Of two candidates one is not better than the other where the other is better. -/
theorem improvesOn_asymm (ha : a.Numbered) (hb : b.Numbered) (hab : a.improvesOn b = true) :
    b.improvesOn a = false := by
  rw [Bool.eq_false_iff]
  intro hba
  have hself := improvesOn_transitive ha hb ha hab hba
  rw [improvesOn_irrefl ha] at hself
  cases hself

end DesignSpace.Candidate
