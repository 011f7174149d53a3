/-
  Subject:   LISTS IN ORDER. Items are put in one by one, each in front of the first one that it
             may precede; items that may precede each other keep their order.

  * `insertBy`: one item put into a list;
  * `arranged`: all items of a list in order;
  * `arranged_perm`, `pairwise_arranged`: nothing is lost, and each item may precede those behind
    it;
  * `filter_arranged`: items that may precede each other keep their order.
-/

namespace DesignSpace

variable {α : Type}

/-- An item put in front of the first one that it may precede. -/
def insertBy (le : α → α → Bool) (x : α) : List α → List α
  | [] => [x]
  | y :: ys => if le x y then x :: y :: ys else y :: insertBy le x ys

/-- The items of a list in order. -/
def arranged (le : α → α → Bool) (xs : List α) : List α := xs.foldr (insertBy le) []

theorem insertBy_perm (le : α → α → Bool) (x : α) (xs : List α) :
    (insertBy le x xs).Perm (x :: xs) := by
  induction xs with
  | nil => exact .refl _
  | cons y ys ih =>
    unfold insertBy
    split
    · exact .refl _
    · exact (ih.cons y).trans (.swap x y ys)

/-- **Nothing is lost**: the items in order are the items of the list. -/
theorem arranged_perm (le : α → α → Bool) (xs : List α) : (arranged le xs).Perm xs := by
  induction xs with
  | nil => exact .refl _
  | cons x xs ih => exact (insertBy_perm le x (arranged le xs)).trans (ih.cons x)

theorem mem_arranged {le : α → α → Bool} {x : α} {xs : List α} :
    x ∈ arranged le xs ↔ x ∈ xs := (arranged_perm le xs).mem_iff

theorem pairwise_insertBy {le : α → α → Bool} (trans : ∀ x y z, le x y → le y z → le x z)
    (total : ∀ x y, le x y || le y x) (x : α) {xs : List α} (h : xs.Pairwise (le · · = true)) :
    (insertBy le x xs).Pairwise (le · · = true) := by
  induction xs with
  | nil => exact List.pairwise_singleton _ _
  | cons y ys ih =>
    obtain ⟨hy, hys⟩ := List.pairwise_cons.1 h
    unfold insertBy
    split
    · rename_i hxy
      refine List.pairwise_cons.2 ⟨fun z hz => ?_, h⟩
      rcases List.mem_cons.1 hz with rfl | hz
      · exact hxy
      · exact trans x y z hxy (hy z hz)
    · rename_i hxy
      refine List.pairwise_cons.2 ⟨fun z hz => ?_, ih hys⟩
      rcases List.mem_cons.1 ((insertBy_perm le x ys).mem_iff.1 hz) with rfl | hz
      · exact (Bool.or_eq_true_iff.1 (total z y)).resolve_left hxy
      · exact hy z hz

/-- **In order**: each item may precede all those behind it. -/
theorem pairwise_arranged {le : α → α → Bool} (trans : ∀ x y z, le x y → le y z → le x z)
    (total : ∀ x y, le x y || le y x) (xs : List α) :
    (arranged le xs).Pairwise (le · · = true) := by
  induction xs with
  | nil => exact .nil
  | cons x xs ih => exact pairwise_insertBy trans total x ih

theorem filter_insertBy {le : α → α → Bool} {p : α → Bool}
    (tied : ∀ x y, p x = true → p y = true → le x y = true) (x : α) (xs : List α) :
    (insertBy le x xs).filter p = (x :: xs).filter p := by
  induction xs with
  | nil => rfl
  | cons y ys ih =>
    unfold insertBy
    split
    · rfl
    · rename_i hxy
      rw [List.filter_cons, ih]
      by_cases hx : p x = true
      · have hy : ¬ p y = true := fun hy => hxy (tied x y hx hy)
        rw [if_neg hy, List.filter_cons_of_pos hx, List.filter_cons_of_pos hx,
          List.filter_cons_of_neg hy]
      · rw [List.filter_cons_of_neg hx, List.filter_cons_of_neg hx, List.filter_cons]

/-- **Ties keep their order**: items that may all precede each other stand as they stood. -/
theorem filter_arranged {le : α → α → Bool} {p : α → Bool}
    (tied : ∀ x y, p x = true → p y = true → le x y = true) (xs : List α) :
    (arranged le xs).filter p = xs.filter p := by
  induction xs with
  | nil => rfl
  | cons x xs ih =>
    show (insertBy le x (arranged le xs)).filter p = _
    rw [filter_insertBy tied, List.filter_cons, ih, ← List.filter_cons]

example : arranged (fun a b => decide (a.1 ≤ b.1)) [(2, 'a'), (1, 'b'), (2, 'c'), (0, 'd')] =
    [(0, 'd'), (1, 'b'), (2, 'a'), (2, 'c')] := by decide

end DesignSpace
