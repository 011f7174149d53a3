/-
  Subject:   KEYED LISTS: finite maps kept as lists of pairs with ascending keys, each key once.

  * `Keyed.get?`: the value at a key;
  * `Keyed.insert`: a value put at a key, in place of the one there;
  * `Keyed.erase`: a key taken out;
  * `Keyed.get?_insert`, `Keyed.get?_erase`: what the operations do to look-ups.
-/

namespace DesignSpace.Keyed

variable {κ α : Type} [DecidableEq κ]

/-- The value at a key. -/
def get? (m : List (κ × α)) (k : κ) : Option α :=
  (m.find? fun e => e.1 = k).map Prod.snd

/-- The map without a key. -/
def erase (m : List (κ × α)) (k : κ) : List (κ × α) := m.filter fun e => e.1 ≠ k

variable [LT κ] [DecidableLT κ]

/-- The map with a value at a key; the key keeps the list ascending. -/
def insert (m : List (κ × α)) (k : κ) (v : α) : List (κ × α) :=
  match m with
  | [] => [(k, v)]
  | e :: rest =>
    if k = e.1 then (k, v) :: rest
    else if k < e.1 then (k, v) :: e :: rest
    else e :: insert rest k v

/-- The map of a list of pairs; of two values at one key the later one counts. -/
def ofList (entries : List (κ × α)) : List (κ × α) :=
  entries.foldl (fun m e => insert m e.1 e.2) []

omit [LT κ] [DecidableLT κ] in
theorem get?_cons (e : κ × α) (m : List (κ × α)) (k : κ) :
    get? (e :: m) k = if e.1 = k then some e.2 else get? m k := by
  unfold get?
  by_cases h : e.1 = k <;> simp [h]

theorem get?_insert (m : List (κ × α)) (k j : κ) (v : α) :
    get? (insert m k v) j = if k = j then some v else get? m j := by
  induction m with
  | nil => simp [insert, get?]
  | cons e rest ih =>
    unfold insert
    split
    · rename_i h
      by_cases hj : k = j
      · simp [get?_cons, hj]
      · simp [get?_cons, hj, ← h]
    · rename_i h
      split
      · simp [get?_cons]
      · by_cases hj : k = j
        · subst hj
          simp [get?_cons, ih, Ne.symm h]
        · simp [get?_cons, ih, hj]

omit [LT κ] [DecidableLT κ] in
theorem get?_erase (m : List (κ × α)) (k j : κ) :
    get? (erase m k) j = if k = j then none else get? m j := by
  induction m with
  | nil => simp [erase, get?]
  | cons e rest ih =>
    unfold erase at ih ⊢
    by_cases he : e.1 = k
    · simp only [he, ne_eq, not_true_eq_false, decide_false, Bool.false_eq_true,
        not_false_eq_true, List.filter_cons_of_neg, ih, get?_cons]
      by_cases hj : k = j <;> simp [hj]
    · simp only [ne_eq, he, not_false_eq_true, decide_true, List.filter_cons_of_pos, get?_cons, ih]
      by_cases hj : k = j
      · simp [hj]; intro h; exact absurd (h.trans hj.symm) he
      · simp [hj]

end DesignSpace.Keyed
