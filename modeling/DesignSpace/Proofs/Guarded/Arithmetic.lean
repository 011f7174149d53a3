/-
  Subject:   GUARDED ARITHMETIC. The operations on counts, positions and lists that have no result
             everywhere, each with a guard in front: a trap where there is no result.

  Arithmetic that stops at the limit has a result everywhere and needs no guard.

  * `Trap`, `Guarded`: why there is no result, and a result or that;
  * `Guarded.div`, `mod`, `sub`, `add`, `clamp`: quotient, remainder, difference, sum, range;
  * `Guarded.item`, `put`, `slice`: one item of a list, a list with one item replaced, some items
    in a row;
  * `Guarded.mapM_eq`: item by item;
  * `Guarded.ceilDiv_eq`, `storageElements_eq`: **no trap** where quotients are rounded up.
-/
import DesignSpace.Cost.Operation
import DesignSpace.Stages

namespace DesignSpace

/-- Why an operation has no result. -/
inductive Trap where
  | zeroDivisor
  | belowZero
  | overflow
  | emptyRange
  | outOfRange
deriving DecidableEq, Repr

/-- A result, or why there is none. -/
abbrev Guarded : Type → Type := Except Trap

namespace Guarded

variable {α β : Type}

/-! ## 1. Numbers -/

/-- The quotient, rounded down. -/
def div (a b : Nat) : Guarded Nat := if b = 0 then .error .zeroDivisor else .ok (a / b)

/-- The remainder. -/
def mod (a b : Nat) : Guarded Nat := if b = 0 then .error .zeroDivisor else .ok (a % b)

/-- The difference. -/
def sub (a b : Nat) : Guarded Nat := if a < b then .error .belowZero else .ok (a - b)

/-- The sum. -/
def add (a b : Nat) : Guarded Nat :=
  if Count.limit < a + b then .error .overflow else .ok (a + b)

/-- A number moved into the range from `low` to `high`. -/
def clamp (low high x : Nat) : Guarded Nat :=
  if high < low then .error .emptyRange else .ok (Count.clamp low high x)

theorem div_eq {b : Nat} (hb : b ≠ 0) (a : Nat) : div a b = .ok (a / b) := if_neg hb

theorem mod_eq {b : Nat} (hb : b ≠ 0) (a : Nat) : mod a b = .ok (a % b) := if_neg hb

theorem sub_eq {a b : Nat} (h : b ≤ a) : sub a b = .ok (a - b) := if_neg (Nat.not_lt.mpr h)

theorem add_eq {a b : Nat} (h : a + b ≤ Count.limit) : add a b = .ok (a + b) :=
  if_neg (Nat.not_lt.mpr h)

theorem clamp_eq {low high : Nat} (h : low ≤ high) (x : Nat) :
    clamp low high x = .ok (Count.clamp low high x) := if_neg (Nat.not_lt.mpr h)

/-! ## 2. Lists -/

/-- The item at a position. -/
def item (xs : List α) (i : Nat) : Guarded α :=
  match xs[i]? with
  | some x => .ok x
  | none => .error .outOfRange

/-- The list with another item at a position. -/
def put (xs : List α) (i : Nat) (x : α) : Guarded (List α) :=
  if i < xs.length then .ok (xs.set i x) else .error .outOfRange

/-- The items at some positions in a row. -/
def slice (s : Span) (xs : List α) : Guarded (List α) :=
  if s.start ≤ s.stop ∧ s.stop ≤ xs.length then .ok (s.slice xs) else .error .outOfRange

theorem item_eq {xs : List α} {i : Nat} {x : α} (h : xs[i]? = some x) : item xs i = .ok x := by
  rw [item, h]

theorem put_eq {xs : List α} {i : Nat} (h : i < xs.length) (x : α) :
    put xs i x = .ok (xs.set i x) := if_pos h

theorem slice_eq {s : Span} {xs : List α} (h : s.start ≤ s.stop) (h' : s.stop ≤ xs.length) :
    slice s xs = .ok (s.slice xs) := if_pos ⟨h, h'⟩

/-! ## 3. One after the other -/

@[simp] theorem ok_bind (a : α) (f : α → Guarded β) : (Except.ok a >>= f : Guarded β) = f a := rfl

@[simp] theorem pure_eq (a : α) : (pure a : Guarded α) = .ok a := rfl

/-- Where there is a result for every item, these are the results. -/
theorem mapM_eq {f : α → Guarded β} {g : α → β} {xs : List α} (h : ∀ x ∈ xs, f x = .ok (g x)) :
    xs.mapM f = .ok (xs.map g) := by
  induction xs with
  | nil => rfl
  | cons x xs ih =>
      rw [List.mapM_cons, h x List.mem_cons_self, ok_bind,
        ih fun y hy => h y (List.mem_cons_of_mem x hy)]
      rfl

/-! ## 4. Quotients rounded up -/

/-- The quotient rounded up; the dividend itself where the divisor is zero. -/
def ceilDiv (a b : Nat) : Guarded Nat :=
  if b = 0 then .ok a
  else do
    let quotient ← div a b
    let rest ← mod a b
    add quotient (if rest = 0 then 0 else 1)

/-- **Rounding up never overflows**: a divisor that leaves a remainder is two at least. -/
theorem ceilDiv_eq {a : Nat} (ha : a ≤ Count.limit) (b : Nat) :
    ceilDiv a b = .ok (Count.ceilDiv a b) := by
  unfold ceilDiv Count.ceilDiv
  by_cases hb : b = 0
  · rw [if_pos hb, if_pos hb]
  · rw [if_neg hb, if_neg hb, div_eq hb, mod_eq hb, ok_bind, ok_bind]
    refine add_eq ?_
    by_cases hmod : a % b = 0
    · rw [if_pos hmod]
      exact Nat.le_trans (Nat.div_le_self a b) ha
    · have hdiv := Nat.div_add_mod a b
      have hle : a / b ≤ b * (a / b) := Nat.le_mul_of_pos_left _ (Nat.pos_of_ne_zero hb)
      rw [if_neg hmod]
      omega

/-- The banks that hold a number of elements of some width. -/
def storageElements (elements bits partition : Nat) : Guarded Nat := do
  let parts := max partition 1
  let share ← ceilDiv elements parts
  let banks ← ceilDiv (Count.mul share bits) bankBits
  return Count.mul parts (max banks 1)

theorem storageElements_eq {elements : Nat} (h : elements ≤ Count.limit) (bits partition : Nat) :
    storageElements elements bits partition =
      .ok (DesignSpace.storageElements elements bits partition) := by
  unfold storageElements
  dsimp only
  rw [ceilDiv_eq h, ok_bind, ceilDiv_eq (Count.mul_le_limit _ _), ok_bind]
  rfl

end Guarded

end DesignSpace
