/-
  Subject:   STAGES MAKE UP THE WHOLE, and balanced stages keep up: where the parts become faster,
             so does the slowest stage.

  * `Span.Trail`: spans in a row, the last one first;
  * `evenStages_slices`, `balancedStages_slices`: **no part is left out and none stands twice**;
  * `Groupable`: items can be grouped into spans of which none costs more than a bound;
  * `Row.Right`, `Row.right_next`: what a row of cuts says, and that the next row says it;
  * `balancedStages_mono`: **faster parts make no slower stage**, also where sums stay at the limit.
-/
import Mathlib.Algebra.Ring.Nat
import Mathlib.Order.Basic
import Mathlib.Data.List.Forall2
import DesignSpace.Stages

namespace DesignSpace

/-! ## 1. Sums -/

namespace Count

theorem foldl_add (a : Nat) (xs : List Nat) :
    xs.foldl add a = if xs = [] then a else min (a + xs.sum) limit := by
  induction xs generalizing a with
  | nil => rfl
  | cons x xs ih =>
      rw [List.foldl_cons, ih, List.sum_cons, if_neg (List.cons_ne_nil _ _)]
      by_cases h : xs = []
      · rw [if_pos h, h]
        rfl
      · rw [if_neg h]
        unfold add
        omega

theorem sum_eq (xs : List Nat) : sum xs = min xs.sum limit := by
  rw [sum, foldl_add]
  by_cases h : xs = []
  · rw [if_pos h, h]
    rfl
  · rw [if_neg h, Nat.zero_add]

theorem sum_le_limit (xs : List Nat) : sum xs ≤ limit := sum_eq xs ▸ Nat.min_le_right _ _

end Count

/-! ## 2. Spans in a row -/

namespace Span

/-- Spans in a row from the first position up to another one, the last span first. -/
inductive Trail : List Span → Nat → Prop where
  | nil : Trail [] 0
  | cons {spans : List Span} {i j : Nat} (hij : i < j) (h : Trail spans i) :
    Trail (⟨i, j⟩ :: spans) j

variable {α : Type} {spans : List Span} {s : Span} {j : Nat}

theorem slices_of_trail (h : Trail spans j) (xs : List α) :
    spans.reverse.flatMap (fun s => s.slice xs) = xs.take j := by
  induction h with
  | nil => rfl
  | @cons spans i j hij _ ih =>
      have hj : j = i + (j - i) := by omega
      rw [List.reverse_cons, List.flatMap_append, ih, List.flatMap_singleton, slice, size]
      conv => rhs; rw [hj, List.take_add]

theorem Trail.mem (h : Trail spans j) (hs : s ∈ spans) : s.start < s.stop ∧ s.stop ≤ j := by
  induction h with
  | nil => exact absurd hs List.not_mem_nil
  | cons hij _ ih =>
      rcases List.mem_cons.mp hs with rfl | hs
      · exact ⟨hij, Nat.le_refl _⟩
      · have := ih hs
        omega

theorem Trail.length_le (h : Trail spans j) : spans.length ≤ j := by
  induction h with
  | nil => exact Nat.le_refl _
  | cons hij _ ih =>
      rw [List.length_cons]
      omega

/-- As many spans as positions hold one position each. -/
theorem Trail.single (h : Trail spans j) (hlength : spans.length = j) (hs : s ∈ spans) :
    s.stop = s.start + 1 := by
  induction h with
  | nil => exact absurd hs List.not_mem_nil
  | cons hij h ih =>
      rw [List.length_cons] at hlength
      have := h.length_le
      rcases List.mem_cons.mp hs with rfl | hs
      · dsimp only
        omega
      · exact ih (by omega) hs

theorem slices_consecutive (start : Nat) (sizes : List Nat) (xs : List α) :
    (consecutive start sizes).flatMap (fun s => s.slice xs) = (xs.drop start).take sizes.sum := by
  induction sizes generalizing start with
  | nil => rfl
  | cons n sizes ih =>
      have hsize : start + n - start = n := by omega
      rw [consecutive, List.flatMap_cons, ih, slice, size, hsize, List.sum_cons, List.take_add,
        List.drop_drop]

end Span

theorem stageCount_pos (n k : Nat) : 0 < stageCount n k := by
  unfold stageCount Count.clamp
  omega

theorem stageCount_le {n : Nat} (hn : 0 < n) (k : Nat) : stageCount n k ≤ n := by
  unfold stageCount Count.clamp
  omega

/-- The sizes of even stages add up to all items. -/
theorem sum_even_sizes (n : Nat) {k : Nat} (hk : 0 < k) :
    (List.replicate (n % k) (n / k + 1) ++ List.replicate (k - n % k) (n / k)).sum = n := by
  have hmod := Nat.mod_lt n hk
  have hdiv := Nat.div_add_mod n k
  have hsum : ∀ q r m : Nat, r < m → r * (q + 1) + (m - r) * q = m * q + r := by
    intro q r m hr
    obtain ⟨t, rfl⟩ : ∃ t, m = r + t := ⟨m - r, by omega⟩
    rw [Nat.add_sub_cancel_left, Nat.mul_add, Nat.add_mul]
    omega
  rw [List.sum_append, List.sum_replicate_nat, List.sum_replicate_nat, hsum _ _ _ hmod, hdiv]

/-- **Even stages make up the whole.** -/
theorem evenStages_slices {α : Type} (xs : List α) (k : Nat) :
    (evenStages xs.length k).flatMap (fun s => s.slice xs) = xs := by
  unfold evenStages
  rw [Span.slices_consecutive, List.drop_zero, sum_even_sizes _ (stageCount_pos _ k),
    List.take_length]

/-! ## 3. Groups of bounded cost -/

/-- The first items can be grouped into some number of spans of which none costs more than a
    bound. -/
def Groupable (cost : Nat → Nat → Nat) (bound : Nat) : (spans stop : Nat) → Prop
  | 0, stop => stop = 0
  | k + 1, stop => ∃ i < stop, Groupable cost bound k i ∧ cost i stop ≤ bound

/-- A wider span of the first `n` items costs no less. -/
def Widening (cost : Nat → Nat → Nat) (n : Nat) : Prop :=
  ∀ ⦃i i' j' j : Nat⦄, i ≤ i' → i' ≤ j' → j' ≤ j → j ≤ n → cost i' j' ≤ cost i j

namespace Groupable

variable {cost cost' : Nat → Nat → Nat} {b b' k i j n : Nat}

theorem mono (h : Groupable cost b k j) (hb : b ≤ b')
    (hcost : ∀ i t, i < t → t ≤ j → cost' i t ≤ cost i t) : Groupable cost' b' k j := by
  induction k generalizing j with
  | zero => exact h
  | succ k ih =>
      obtain ⟨i, hi, hbefore, hlast⟩ := h
      refine ⟨i, hi, ih hbefore fun i' t hi' ht => hcost i' t hi' (by omega), ?_⟩
      exact Nat.le_trans (hcost i j hi (Nat.le_refl j)) (Nat.le_trans hlast hb)

theorem weaken (h : Groupable cost b k j) (hb : b ≤ b') : Groupable cost b' k j :=
  h.mono hb fun _ _ _ _ => Nat.le_refl _

theorem spans_le (h : Groupable cost b k j) : k ≤ j := by
  induction k generalizing j with
  | zero => exact Nat.zero_le j
  | succ k ih =>
      obtain ⟨i, hi, hbefore, -⟩ := h
      have := ih hbefore
      omega

theorem item (hw : Widening cost n) (hj : j ≤ n) (h : Groupable cost b k j) (hi : i < j) :
    cost i (i + 1) ≤ b := by
  induction k generalizing j with
  | zero =>
      obtain rfl : j = 0 := h
      omega
  | succ k ih =>
      obtain ⟨m, hm, hbefore, hlast⟩ := h
      by_cases him : i < m
      · exact ih (by omega) hbefore him
      · have hcost : cost i (i + 1) ≤ cost m j := hw (by omega) (by omega) (by omega) hj
        exact Nat.le_trans hcost hlast

/-- Fewer items can be grouped as well. -/
theorem shorten (hw : Widening cost n) (hj : j ≤ n) (h : Groupable cost b k j) (hk : k ≤ i)
    (hi : i ≤ j) : Groupable cost b k i := by
  induction k generalizing i j with
  | zero =>
      obtain rfl : j = 0 := h
      exact Nat.le_zero.mp hi
  | succ k ih =>
      obtain ⟨m, hm, hbefore, hlast⟩ := h
      by_cases hmi : m < i
      · have hcost : cost m i ≤ cost m j := hw (Nat.le_refl m) (by omega) hi hj
        exact ⟨m, hmi, hbefore, Nat.le_trans hcost hlast⟩
      · have hitem : cost (i - 1) (i - 1 + 1) ≤ b :=
          item (k := k + 1) hw hj ⟨m, hm, hbefore, hlast⟩ (by omega)
        have hsucc : i - 1 + 1 = i := by omega
        rw [hsucc] at hitem
        exact ⟨i - 1, by omega, ih (by omega) hbefore (by omega) (by omega), hitem⟩

theorem exists_of_le (cost : Nat → Nat → Nat) (hk : 0 < k) (hj : k ≤ j) :
    ∃ b, Groupable cost b k j := by
  induction k generalizing j with
  | zero => omega
  | succ k ih =>
      by_cases hk0 : k = 0
      · subst hk0
        exact ⟨cost 0 j, 0, by omega, rfl, Nat.le_refl _⟩
      · obtain ⟨b, hb⟩ := ih (j := j - 1) (by omega) (by omega)
        exact ⟨max b (cost (j - 1) j), j - 1, by omega, hb.weaken (Nat.le_max_left _ _),
          Nat.le_max_right _ _⟩

/-- Spans in a row of bounded cost group the items. -/
theorem of_trail {spans : List Span} (h : Span.Trail spans j)
    (hcost : ∀ s ∈ spans, cost s.start s.stop ≤ b) : Groupable cost b spans.length j := by
  induction h with
  | nil => rfl
  | @cons spans i j hij _ ih =>
      refine ⟨i, hij, ih fun s hs => hcost s (List.mem_cons_of_mem _ hs), ?_⟩
      exact hcost ⟨i, j⟩ List.mem_cons_self

end Groupable

/-! ## 4. The best cut -/

/-- **A best cut**: it stands in the list, no other one is better, and none as good starts
    earlier. -/
structure BestCut (total start : Nat) (rows : List (Option Cut × Nat)) (best : Option Cut)
    (c : Cut) : Prop where
  found : best = some c ∨ ∃ i b sum, rows[i]? = some (some b, sum) ∧
    c = ⟨max b.slowest (total - sum), start + i⟩
  old : ∀ b, best = some b → c = b ∨ c.slowest < b.slowest
  first : ∀ i b sum, rows[i]? = some (some b, sum) →
    c.slowest < max b.slowest (total - sum) ∨
      c.slowest = max b.slowest (total - sum) ∧ c.start ≤ start + i

/-- One row with a cut before it: the search goes on with a new best cut, or with the one before if
    that is as good. -/
theorem bestCut_cons (total start : Nat) (before : Cut) (sum : Nat)
    (rows : List (Option Cut × Nat)) (best : Option Cut) : ∃ b,
      bestCut total start ((some before, sum) :: rows) best =
        bestCut total (start + 1) rows (some b) ∧
      (b = ⟨max before.slowest (total - sum), start⟩ ∧
          (∀ b', best = some b' → b.slowest < b'.slowest) ∨
        best = some b ∧ b.slowest ≤ max before.slowest (total - sum)) := by
  cases best with
  | none => exact ⟨_, rfl, .inl ⟨rfl, nofun⟩⟩
  | some b =>
      by_cases hlt : max before.slowest (total - sum) < b.slowest
      · refine ⟨⟨max before.slowest (total - sum), start⟩, ?_, .inl ⟨rfl, fun b' hb' => ?_⟩⟩
        · simp only [bestCut, hlt, decide_true, if_true]
        · rw [← Option.some.inj hb']
          exact hlt
      · refine ⟨b, ?_, .inr ⟨rfl, Nat.le_of_not_lt hlt⟩⟩
        simp only [bestCut, hlt, decide_false, Bool.false_eq_true, if_false]

/-- The search for the best cut finds one unless there is none. -/
theorem bestCut_eq_none {total start : Nat} {rows : List (Option Cut × Nat)} {best : Option Cut}
    (h : bestCut total start rows best = none) : best = none ∧ ∀ r ∈ rows, r.1 = none := by
  induction rows generalizing start best with
  | nil => exact ⟨h, nofun⟩
  | cons row rows ih =>
      obtain ⟨cut, sum⟩ := row
      cases cut with
      | none =>
          obtain ⟨hbest, hrows⟩ := ih h
          exact ⟨hbest, fun r hr => (List.mem_cons.mp hr).elim (fun h => h ▸ rfl) (hrows r)⟩
      | some before =>
          obtain ⟨b, heq, -⟩ := bestCut_cons total start before sum rows best
          rw [heq] at h
          exact absurd (ih h).1 (Option.some_ne_none b)

namespace BestCut

variable {total start sum : Nat} {rows : List (Option Cut × Nat)} {best : Option Cut}
  {b c before : Cut}

/-- A row without a cut before it changes nothing. -/
theorem cons_none (h : BestCut total (start + 1) rows best c) :
    BestCut total start ((none, sum) :: rows) best c := by
  have hshift : ∀ i, start + 1 + i = start + (i + 1) := fun i => by omega
  refine ⟨?_, h.old, fun i b s hi => ?_⟩
  · rcases h.found with hf | ⟨i, b, s, hi, hf⟩
    · exact .inl hf
    · exact .inr ⟨i + 1, b, s, hi, hshift i ▸ hf⟩
  · cases i with
    | zero => simp at hi
    | succ i => exact hshift i ▸ h.first i b s hi

/-- The first row has the new best cut, and it is better than the one before. -/
theorem cons_better (hb : b = ⟨max before.slowest (total - sum), start⟩)
    (hlt : ∀ b', best = some b' → b.slowest < b'.slowest)
    (h : BestCut total (start + 1) rows (some b) c) :
    BestCut total start ((some before, sum) :: rows) best c := by
  have hshift : ∀ i, start + 1 + i = start + (i + 1) := fun i => by omega
  subst hb
  have hle := h.old _ rfl
  refine ⟨?_, fun b' hb' => .inr ?_, fun i b' s hi => ?_⟩
  · rcases h.found with hf | ⟨i, b', s, hi, hf⟩
    · exact .inr ⟨0, before, sum, rfl, (Option.some.inj hf).symm⟩
    · exact .inr ⟨i + 1, b', s, hi, hshift i ▸ hf⟩
  · rcases hle with rfl | hle
    · exact hlt b' hb'
    · exact Nat.lt_trans hle (hlt b' hb')
  · cases i with
    | succ i => exact hshift i ▸ h.first i b' s hi
    | zero =>
        obtain ⟨rfl, rfl⟩ : before = b' ∧ sum = s := by simpa using hi
        rcases hle with rfl | hle
        · exact .inr ⟨rfl, Nat.le_refl _⟩
        · exact .inl hle

/-- The best cut of before is as good as that of the first row. -/
theorem cons_kept (hb : b.slowest ≤ max before.slowest (total - sum)) (hstart : b.start < start)
    (h : BestCut total (start + 1) rows (some b) c) :
    BestCut total start ((some before, sum) :: rows) (some b) c := by
  have hshift : ∀ i, start + 1 + i = start + (i + 1) := fun i => by omega
  refine ⟨?_, h.old, fun i b' s hi => ?_⟩
  · rcases h.found with hf | ⟨i, b', s, hi, hf⟩
    · exact .inl hf
    · exact .inr ⟨i + 1, b', s, hi, hshift i ▸ hf⟩
  · cases i with
    | succ i => exact hshift i ▸ h.first i b' s hi
    | zero =>
        obtain ⟨rfl, rfl⟩ : before = b' ∧ sum = s := by simpa using hi
        rcases h.old b rfl with rfl | hlt
        · rcases Nat.lt_or_eq_of_le hb with hlt | heq
          · exact .inl hlt
          · exact .inr ⟨heq, Nat.le_of_lt hstart⟩
        · exact .inl (Nat.lt_of_lt_of_le hlt hb)

end BestCut

/-- **The search for the best cut finds it.** -/
theorem bestCut_spec {total start : Nat} {rows : List (Option Cut × Nat)} {best : Option Cut}
    {c : Cut} (hstart : ∀ b, best = some b → b.start < start)
    (h : bestCut total start rows best = some c) : BestCut total start rows best c := by
  induction rows generalizing start best with
  | nil =>
      have hc : best = some c := h
      refine ⟨.inl hc, fun b hb => .inl ?_, nofun⟩
      rw [hc] at hb
      exact Option.some.inj hb
  | cons row rows ih =>
      obtain ⟨cut, sum⟩ := row
      cases cut with
      | none => exact (ih (fun b hb => Nat.lt_succ_of_lt (hstart b hb)) h).cons_none
      | some before =>
          obtain ⟨b, heq, hb⟩ := bestCut_cons total start before sum rows best
          rw [heq] at h
          rcases hb with ⟨hb, hlt⟩ | ⟨rfl, hb⟩
          · refine (ih (fun b' hb' => ?_) h).cons_better hb hlt
            rw [← Option.some.inj hb', hb]
            exact Nat.lt_succ_self start
          · refine (ih (fun b' hb' => ?_) h).cons_kept hb (hstart b rfl)
            exact Nat.lt_succ_of_lt (hstart b' hb')

/-! ## 5. Rows of cuts -/

/-- The cut of a row at a position. -/
def Row.cut? (row : List (Option Cut)) (j : Nat) : Option Cut := row[j]?.join

/-- The row for a number of spans. -/
def Row.of (sums : List Nat) : Nat → List (Option Cut)
  | 0 => firstRow (sums.length - 1)
  | k + 1 => nextRow sums (Row.of sums k)

/-- The rows for a number of spans and for all smaller ones, but for that without any span. -/
def Row.upTo (sums : List Nat) : Nat → List (List (Option Cut))
  | 0 => []
  | k + 1 => Row.of sums (k + 1) :: Row.upTo sums k

/-- What the sums before two positions say of the items between them. -/
def spanSum (sums : List Nat) (i j : Nat) : Nat := sums.getD j 0 - sums.getD i 0

/-- **A cut is right**: the items can be grouped as it says, and with no smaller bound. -/
structure RightCut (sums : List Nat) (k j : Nat) (c : Cut) : Prop where
  groups : Groupable (spanSum sums) c.slowest k j
  least : ∀ b, Groupable (spanSum sums) b k j → c.slowest ≤ b

/-- **The last span starts right**: before it and in it the bound is kept, and it starts as early
    as that allows. -/
structure RightStart (sums : List Nat) (k j : Nat) (c : Cut) : Prop where
  lt : c.start < j
  before : Groupable (spanSum sums) c.slowest k c.start
  last : spanSum sums c.start j ≤ c.slowest
  earliest : ∀ i < c.start, Groupable (spanSum sums) c.slowest k i → c.slowest < spanSum sums i j

namespace Row

variable {sums : List Nat} {row : List (Option Cut)} {k j : Nat} {c : Cut}

theorem cutRows_eq (sums : List Nat) (k m : Nat) :
    cutRows sums k (of sums m) (upTo sums m) = upTo sums (m + k) := by
  induction k generalizing m with
  | zero => rfl
  | succ k ih =>
      have hsucc : m + (k + 1) = m + 1 + k := by omega
      rw [hsucc, ← ih]
      rfl

theorem length_of (hsums : sums ≠ []) (k : Nat) : (of sums k).length = sums.length := by
  have hpos := List.length_pos_iff.mpr hsums
  cases k with
  | zero =>
      rw [of, firstRow, List.length_cons, List.length_replicate]
      omega
  | succ k => rw [of, nextRow, List.length_mapIdx]

/-- **What a row of cuts says** is right at every position, and where it says nothing there is
    nothing. -/
structure Right (sums : List Nat) (k : Nat) (row : List (Option Cut)) : Prop where
  length : row.length = sums.length
  some : ∀ j < sums.length, ∀ c, cut? row j = some c → RightCut sums k j c
  none : ∀ j < sums.length, cut? row j = none → ∀ b, ¬ Groupable (spanSum sums) b k j

/-- Where items can be grouped, a row has a cut, with no larger bound. -/
theorem Right.exists_cut (h : Right sums k row) (hj : j < sums.length) {b : Nat}
    (hb : Groupable (spanSum sums) b k j) : ∃ c, cut? row j = .some c ∧ c.slowest ≤ b := by
  cases hc : cut? row j with
  | none => exact absurd hb (h.none j hj hc b)
  | some c => exact ⟨c, rfl, (h.some j hj c hc).least b hb⟩

theorem right_first (hsums : sums ≠ []) : Right sums 0 (firstRow (sums.length - 1)) := by
  have hcut : ∀ j < sums.length, cut? (firstRow (sums.length - 1)) j =
      if j = 0 then .some ⟨0, 0⟩ else .none := by
    intro j hj
    cases j with
    | zero => rfl
    | succ j =>
        have hlt : j < sums.length - 1 := by omega
        simp [cut?, firstRow, hlt]
  refine ⟨length_of hsums 0, fun j hj c hc => ?_, fun j hj hc b hb => ?_⟩
  · rw [hcut j hj] at hc
    by_cases h0 : j = 0
    · rw [if_pos h0] at hc
      obtain rfl := Option.some.inj hc
      exact ⟨h0, fun b _ => Nat.zero_le b⟩
    · rw [if_neg h0] at hc
      cases hc
  · have hb : j = 0 := hb
    rw [hcut j hj, if_pos hb] at hc
    cases hc

theorem cut?_nextRow (hj : j < sums.length) : cut? (nextRow sums row) j =
    bestCut (sums.getD j 0) 0 ((row.zip sums).take j) none := by
  simp [cut?, nextRow, hj]

/-- The cuts and sums before a position. -/
theorem getElem?_before {i b : Nat} {o : Option Cut} :
    ((row.zip sums).take j)[i]? = .some (o, b) ↔
      i < j ∧ row[i]? = .some o ∧ sums[i]? = .some b := by
  rw [List.getElem?_take]
  by_cases h : i < j
  · rw [if_pos h, List.getElem?_zip_eq_some]
    simp [h]
  · rw [if_neg h]
    simp [h]

theorem getElem?_of_cut? (h : cut? row j = .some c) : row[j]? = .some (.some c) := by
  unfold cut? at h
  cases hr : row[j]? with
  | none => simp [hr] at h
  | some o => simpa [hr] using h

theorem getElem?_of_lt {i : Nat} (hi : i < sums.length) : sums[i]? = .some (sums.getD i 0) := by
  simp [hi]

/-- A cut of the row before, met on the way to a position. -/
theorem getElem?_met {i : Nat} {b : Cut} (hj : j < sums.length) (hi : i < j)
    (hb : cut? row i = .some b) :
    ((row.zip sums).take j)[i]? = .some (.some b, sums.getD i 0) :=
  getElem?_before.mpr ⟨hi, getElem?_of_cut? hb, getElem?_of_lt (Nat.lt_trans hi hj)⟩

theorem bestCut_of_nextRow (hj : j < sums.length) (hc : cut? (nextRow sums row) j = .some c) :
    BestCut (sums.getD j 0) 0 ((row.zip sums).take j) .none c := by
  rw [cut?_nextRow hj] at hc
  exact bestCut_spec nofun hc

/-- The best cut keeps its bound, before its last span and in it. -/
theorem Right.last_span (h : Right sums k row) (hj : j < sums.length)
    (hc : BestCut (sums.getD j 0) 0 ((row.zip sums).take j) .none c) :
    c.start < j ∧ Groupable (spanSum sums) c.slowest k c.start ∧
      spanSum sums c.start j ≤ c.slowest := by
  obtain ⟨i, b, s, hi, rfl⟩ := hc.found.resolve_left nofun
  obtain ⟨hij, hrow, hs⟩ := getElem?_before.mp hi
  have hs : sums.getD i 0 = s :=
    Option.some.inj ((getElem?_of_lt (Nat.lt_trans hij hj)).symm.trans hs)
  have hb : RightCut sums k i b := h.some i (by omega) b (by rw [cut?, hrow]; rfl)
  simp only [Nat.zero_add]
  refine ⟨hij, hb.groups.weaken (Nat.le_max_left _ _), ?_⟩
  rw [spanSum, hs]
  exact Nat.le_max_right _ _

/-- No other last span does better than the best cut, and one that does as well starts no
    earlier. -/
theorem Right.first_cut (h : Right sums k row) (hj : j < sums.length)
    (hc : BestCut (sums.getD j 0) 0 ((row.zip sums).take j) .none c) {i b : Nat} (hi : i < j)
    (hb : Groupable (spanSum sums) b k i) :
    c.slowest < max b (spanSum sums i j) ∨ c.slowest ≤ max b (spanSum sums i j) ∧ c.start ≤ i := by
  obtain ⟨b', hb', hle⟩ := h.exists_cut (Nat.lt_trans hi hj) hb
  have hmax : max b'.slowest (sums.getD j 0 - sums.getD i 0) ≤ max b (spanSum sums i j) :=
    Nat.max_le.mpr ⟨Nat.le_trans hle (Nat.le_max_left _ _), Nat.le_max_right _ _⟩
  rcases hc.first i b' _ (getElem?_met hj hi hb') with hlt | ⟨heq, hstart⟩
  · exact .inl (Nat.lt_of_lt_of_le hlt hmax)
  · exact .inr ⟨heq ▸ hmax, Nat.zero_add i ▸ hstart⟩

/-- **The next row** is right, and its last spans start right. -/
theorem right_next (h : Right sums k row) : Right sums (k + 1) (nextRow sums row) ∧
    ∀ j < sums.length, ∀ c, cut? (nextRow sums row) j = .some c → RightStart sums k j c := by
  refine ⟨⟨?_, fun j hj c hc => ?_, fun j hj hc b hb => ?_⟩, fun j hj c hc => ?_⟩
  · rw [nextRow, List.length_mapIdx]
  · have hcut := bestCut_of_nextRow hj hc
    refine ⟨⟨c.start, h.last_span hj hcut⟩, fun b hb => ?_⟩
    obtain ⟨i, hi, hgroup, hcost⟩ := hb
    have hmax : max b (spanSum sums i j) ≤ b := Nat.max_le.mpr ⟨Nat.le_refl b, hcost⟩
    rcases h.first_cut hj hcut hi hgroup with hlt | ⟨hle, -⟩
    · exact Nat.le_trans (Nat.le_of_lt hlt) hmax
    · exact Nat.le_trans hle hmax
  · obtain ⟨i, hi, hgroup, -⟩ := hb
    obtain ⟨b', hb', -⟩ := h.exists_cut (Nat.lt_trans hi hj) hgroup
    rw [cut?_nextRow hj] at hc
    have hnone := (bestCut_eq_none hc).2 _ (List.mem_of_getElem? (getElem?_met hj hi hb'))
    cases hnone
  · have hcut := bestCut_of_nextRow hj hc
    obtain ⟨hlt, hbefore, hlast⟩ := h.last_span hj hcut
    refine ⟨hlt, hbefore, hlast, fun i hi hgroup => Nat.lt_of_not_le fun hge => ?_⟩
    have hmax : max c.slowest (spanSum sums i j) ≤ c.slowest := Nat.max_le.mpr ⟨Nat.le_refl _, hge⟩
    rcases h.first_cut hj hcut (Nat.lt_trans hi hlt) hgroup with hless | ⟨-, hstart⟩
    · exact absurd (Nat.lt_of_lt_of_le hless hmax) (Nat.lt_irrefl _)
    · exact absurd hstart (Nat.not_le.mpr hi)

theorem right_of (hsums : sums ≠ []) (k : Nat) : Right sums k (of sums k) := by
  induction k with
  | zero => exact right_first hsums
  | succ k ih => exact (right_next ih).1

theorem start_of (hsums : sums ≠ []) (hj : j < sums.length)
    (hc : cut? (of sums (k + 1)) j = .some c) : RightStart sums k j c :=
  (right_next (right_of hsums k)).2 j hj c hc

/-- The way back from a position goes on where its last span starts. -/
theorem traceCuts_succ (hc : cut? (of sums (k + 1)) j = .some c) :
    traceCuts (upTo sums (k + 1)) j = ⟨c.start, j⟩ :: traceCuts (upTo sums k) c.start := by
  have hcut : (of sums (k + 1))[j]?.join = .some c := hc
  simp only [upTo, traceCuts, hcut]
  rfl

/-- **Following the cuts back** gives spans in a row, of which none costs more than the bound. -/
theorem trail_of_cut (hsums : sums ≠ []) (hj : j < sums.length)
    (hc : cut? (of sums k) j = .some c) : Span.Trail (traceCuts (upTo sums k) j) j ∧
      (traceCuts (upTo sums k) j).length = k ∧
        ∀ s ∈ traceCuts (upTo sums k) j, spanSum sums s.start s.stop ≤ c.slowest := by
  induction k generalizing j c with
  | zero =>
      obtain rfl : j = 0 := ((right_of hsums 0).some j hj c hc).groups
      exact ⟨.nil, rfl, nofun⟩
  | succ k ih =>
      have hstart := start_of hsums hj hc
      have hlt := hstart.lt
      obtain ⟨b, hb, hle⟩ := (right_of hsums k).exists_cut (by omega) hstart.before
      obtain ⟨htrail, hlength, hcost⟩ := ih (by omega) hb
      rw [traceCuts_succ hc]
      refine ⟨.cons hlt htrail, by rw [List.length_cons, hlength], fun s hs => ?_⟩
      rcases List.mem_cons.mp hs with rfl | hs
      · exact hstart.last
      · exact Nat.le_trans (hcost s hs) hle

end Row

/-! ## 6. Balanced stages -/

theorem sum_take_add {i j : Nat} (hij : i ≤ j) (xs : List Nat) :
    (xs.take j).sum = (xs.take i).sum + ((Span.mk i j).slice xs).sum := by
  have hj : j = i + (j - i) := by omega
  rw [Span.slice, Span.size, ← List.sum_append, ← List.take_add, ← hj]

theorem scanl_getElem? (a : Nat) (xs : List Nat) {j : Nat} (hj : j ≤ xs.length) :
    (xs.scanl Count.add a)[j]? = some ((xs.take j).foldl Count.add a) := by
  induction xs generalizing a j with
  | nil =>
      obtain rfl : j = 0 := Nat.le_zero.mp hj
      rfl
  | cons x xs ih =>
      cases j with
      | zero => simp
      | succ j =>
          rw [List.scanl_cons, List.getElem?_cons_succ, ih _ (Nat.le_of_succ_le_succ hj)]
          rfl

theorem length_prefixSums (xs : List Nat) : (prefixSums xs).length = xs.length + 1 :=
  List.length_scanl

/-- A sum before a position stays at the limit. -/
theorem prefixSums_getD {xs : List Nat} {j : Nat} (hj : j ≤ xs.length) :
    (prefixSums xs).getD j 0 = min (xs.take j).sum Count.limit := by
  have hget : (prefixSums xs)[j]? = some (Count.sum (xs.take j)) := scanl_getElem? 0 xs hj
  rw [List.getD_eq_getElem?_getD, hget, Count.sum_eq]
  rfl

/-- The sum of the items in a span, which stays at the limit. -/
def stageSum (xs : List Nat) (i j : Nat) : Nat := Count.sum ((Span.mk i j).slice xs)

theorem stageSum_eq {i j : Nat} (hij : i ≤ j) (xs : List Nat) :
    stageSum xs i j = min ((xs.take j).sum - (xs.take i).sum) Count.limit := by
  rw [stageSum, Count.sum_eq, sum_take_add hij, Nat.add_sub_cancel_left]

theorem spanSum_eq {xs : List Nat} {i j : Nat} (hij : i ≤ j) (hj : j ≤ xs.length) :
    spanSum (prefixSums xs) i j =
      min (xs.take j).sum Count.limit - min (xs.take i).sum Count.limit := by
  rw [spanSum, prefixSums_getD hj, prefixSums_getD (by omega)]

/-- What the sums tell of a span is not too much, -/
theorem spanSum_le {xs : List Nat} {i j : Nat} (hij : i ≤ j) (hj : j ≤ xs.length) :
    spanSum (prefixSums xs) i j ≤ stageSum xs i j := by
  rw [spanSum_eq hij hj, stageSum_eq hij]
  omega

/-- and it is right where they are below the limit. -/
theorem spanSum_eq_stageSum {xs : List Nat} {i j : Nat} (hij : i ≤ j) (hj : j ≤ xs.length)
    (hlimit : (xs.take j).sum ≤ Count.limit) : spanSum (prefixSums xs) i j = stageSum xs i j := by
  have := sum_take_add hij xs
  rw [spanSum_eq hij hj, stageSum_eq hij]
  omega

theorem widening_spanSum (xs : List Nat) : Widening (spanSum (prefixSums xs)) xs.length := by
  intro i i' j' j hi hij hj hn
  have h1 := sum_take_add hi xs
  have h2 := sum_take_add hj xs
  rw [spanSum_eq hij (by omega), spanSum_eq (by omega) hn]
  omega

theorem widening_stageSum (xs : List Nat) : Widening (stageSum xs) xs.length := by
  intro i i' j' j hi hij hj hn
  have h1 := sum_take_add hi xs
  have h2 := sum_take_add hj xs
  rw [stageSum_eq hij, stageSum_eq (by omega)]
  omega

section Balanced

variable {xs ys : List Nat} {k m : Nat} {c c' : Cut}

/-- The stages follow the cuts back. -/
theorem balancedStages_eq (hxs : xs ≠ []) (k : Nat) : balancedStages xs k =
    (traceCuts (Row.upTo (prefixSums xs) (stageCount xs.length k)) xs.length).reverse := by
  have hn : xs.length ≠ 0 := fun h => hxs (List.length_eq_zero_iff.mp h)
  have hfirst : firstRow xs.length = Row.of (prefixSums xs) 0 := by
    rw [Row.of, length_prefixSums, Nat.add_sub_cancel]
  have hrows := Row.cutRows_eq (prefixSums xs) (stageCount xs.length k) 0
  rw [Nat.zero_add] at hrows
  unfold balancedStages
  rw [if_neg hn, hfirst]
  exact congrArg (fun rows => (traceCuts rows xs.length).reverse) hrows

theorem prefixSums_ne_nil (xs : List Nat) : prefixSums xs ≠ [] := by
  intro h
  have := length_prefixSums xs
  rw [h] at this
  cases this

/-- There is a cut for every number of spans that the items can be grouped into. -/
theorem exists_cut_balanced (hxs : xs ≠ []) (k : Nat) : ∃ c,
    Row.cut? (Row.of (prefixSums xs) (stageCount xs.length k)) xs.length = some c := by
  have hn : 0 < xs.length := List.length_pos_iff.mpr hxs
  obtain ⟨b, hb⟩ := Groupable.exists_of_le (spanSum (prefixSums xs))
    (stageCount_pos xs.length k) (stageCount_le hn k)
  have hlt : xs.length < (prefixSums xs).length := by
    rw [length_prefixSums]
    exact Nat.lt_succ_self _
  obtain ⟨c, hc, -⟩ := (Row.right_of (prefixSums_ne_nil xs) _).exists_cut hlt hb
  exact ⟨c, hc⟩

/-- **Balanced stages make up the whole**, and are as many as asked for. -/
theorem balancedStages_slices {α : Type} (xs : List Nat) (parts : List α)
    (hlength : parts.length = xs.length) (k : Nat) :
    (balancedStages xs k).flatMap (fun s => s.slice parts) = parts ∧
      (balancedStages xs k).length = stageCount xs.length k := by
  by_cases hxs : xs = []
  · subst hxs
    obtain rfl := List.length_eq_zero_iff.mp hlength
    refine ⟨rfl, ?_⟩
    show 1 = stageCount 0 k
    unfold stageCount Count.clamp
    omega
  · obtain ⟨c, hc⟩ := exists_cut_balanced hxs k
    have hlt : xs.length < (prefixSums xs).length := by
      rw [length_prefixSums]
      exact Nat.lt_succ_self _
    obtain ⟨htrail, hcount, -⟩ := Row.trail_of_cut (prefixSums_ne_nil xs) hlt hc
    rw [balancedStages_eq hxs]
    refine ⟨?_, by rw [List.length_reverse, hcount]⟩
    rw [Span.slices_of_trail htrail, ← hlength, List.take_length]

/-- **The last cut** of `m + 1` balanced stages. -/
structure LastCut (xs : List Nat) (m : Nat) (c : Cut) : Prop where
  found : Row.cut? (Row.of (prefixSums xs) (m + 1)) xs.length = some c
  right : RightCut (prefixSums xs) (m + 1) xs.length c
  start : RightStart (prefixSums xs) m xs.length c

theorem exists_lastCut (hxs : xs ≠ []) (hm : stageCount xs.length k = m + 1) :
    ∃ c, LastCut xs m c := by
  have hlt : xs.length < (prefixSums xs).length := by
    rw [length_prefixSums]
    exact Nat.lt_succ_self _
  obtain ⟨c, hc⟩ := exists_cut_balanced hxs k
  rw [hm] at hc
  have hsums := prefixSums_ne_nil xs
  exact ⟨c, hc, (Row.right_of hsums _).some _ hlt c hc, Row.start_of hsums hlt hc⟩

/-- Before a position with a sum below the limit, the sums say what the spans sum up to. -/
theorem spanSum_agree {j : Nat} (hj : j ≤ xs.length) (hlimit : (xs.take j).sum ≤ Count.limit) :
    ∀ i t, i < t → t ≤ j → spanSum (prefixSums xs) i t = stageSum xs i t := by
  intro i t hi ht
  have := sum_take_add ht xs
  exact spanSum_eq_stageSum (by omega) (by omega) (by omega)

namespace LastCut

/-- The last stage starts at the first possible position, or before the sums reach the limit. -/
theorem below_limit (hc : LastCut xs m c) :
    c.start = m ∨ (xs.take c.start).sum < Count.limit := by
  have hm := hc.start.before.spans_le
  have hlt := hc.start.lt
  by_cases hstart : c.start = m
  · exact .inl hstart
  right
  by_contra hlimit
  have hsucc : c.start - 1 + 1 = c.start := by omega
  have hitem := hc.start.before.item (widening_spanSum xs) (by omega) (i := c.start - 1) (by omega)
  have hfirst := hc.start.earliest (c.start - 1) (by omega)
    (hc.start.before.shorten (widening_spanSum xs) (by omega) (by omega) (by omega))
  have hsum := sum_take_add (Nat.le_of_lt hlt) xs
  rw [hsucc, spanSum_eq (by omega) (by omega)] at hitem
  rw [spanSum_eq (by omega) (Nat.le_refl _)] at hfirst
  omega

/-- **What balanced stages cost** is known from where the last one starts: the others are as good
    as any, and the last one is what is left. -/
theorem stages_le_iff (hxs : xs ≠ []) (hm : stageCount xs.length k = m + 1)
    (hc : LastCut xs m c) (b : Nat) :
    (∀ s ∈ balancedStages xs k, Count.sum (s.slice xs) ≤ b) ↔
      Groupable (stageSum xs) b m c.start ∧ stageSum xs c.start xs.length ≤ b := by
  have hsums := prefixSums_ne_nil xs
  have hslt := hc.start.lt
  have hright := Row.right_of hsums m
  have hlt : c.start < (prefixSums xs).length := by
    rw [length_prefixSums]
    omega
  obtain ⟨c', hc', -⟩ := hright.exists_cut hlt hc.start.before
  obtain ⟨htrail, hlength, hcost⟩ := Row.trail_of_cut hsums hlt hc'
  rw [balancedStages_eq hxs, hm, Row.traceCuts_succ hc.found]
  simp only [List.mem_reverse, List.forall_mem_cons]
  rw [and_comm]
  refine and_congr_left fun _ => ⟨fun h => ?_, fun h s hs => ?_⟩
  · rw [← hlength]
    exact .of_trail htrail h
  · obtain ⟨hs1, hs2⟩ := htrail.mem hs
    rcases hc.below_limit with hfirst | hlimit
    · -- as many spans as items: each span is one of them
      have hone := htrail.single (hlength.trans hfirst.symm) hs
      have hitem := h.item (widening_stageSum xs) (by omega) (i := s.start) (by omega)
      rw [← hone] at hitem
      exact hitem
    · have hagree := spanSum_agree (Nat.le_of_lt hslt) (Nat.le_of_lt hlimit)
      have hle := (hright.some _ hlt c' hc').least b
        (h.mono (Nat.le_refl b) fun i t hi ht => Nat.le_of_eq (hagree i t hi ht))
      have hspan := hcost s hs
      rw [hagree s.start s.stop hs1 hs2] at hspan
      exact Nat.le_trans hspan hle

end LastCut

theorem sum_le_sum (h : List.Forall₂ (· ≤ ·) xs ys) : xs.sum ≤ ys.sum := by
  induction h with
  | nil => exact Nat.le_refl _
  | cons h _ ih =>
      rw [List.sum_cons, List.sum_cons]
      omega

theorem count_sum_le (h : List.Forall₂ (· ≤ ·) xs ys) : Count.sum xs ≤ Count.sum ys := by
  have := sum_le_sum h
  rw [Count.sum_eq, Count.sum_eq]
  omega

theorem stageSum_mono (h : List.Forall₂ (· ≤ ·) xs ys) (i j : Nat) :
    stageSum xs i j ≤ stageSum ys i j :=
  count_sum_le (List.forall₂_take (j - i) (List.forall₂_drop i h))

namespace LastCut

/-- A cut that starts later than another one does so because too much is left from there on. -/
theorem of_later (hc : LastCut xs m c) {i b : Nat} (hm : m ≤ i) (hi : i < c.start)
    (hb : stageSum xs i xs.length ≤ b) :
    Groupable (stageSum xs) b m c.start ∧ stageSum xs c.start xs.length ≤ b := by
  have hlt := hc.start.lt
  have hlimit := hc.below_limit.resolve_left (by omega)
  have hfirst := hc.start.earliest i hi
    (hc.start.before.shorten (widening_spanSum xs) (by omega) hm (by omega))
  have hspan : spanSum (prefixSums xs) i xs.length ≤ stageSum xs i xs.length :=
    spanSum_le (by omega) (Nat.le_refl _)
  have hagree := spanSum_agree (Nat.le_of_lt hlt) (Nat.le_of_lt hlimit)
  refine ⟨hc.start.before.mono (by omega) fun i t hi ht => Nat.le_of_eq (hagree i t hi ht).symm, ?_⟩
  exact Nat.le_trans (widening_stageSum xs (by omega) (by omega) (by omega) (Nat.le_refl _)) hb

/-- A cut of faster items that starts earlier than that of slower ones leaves no more for the last
    stage than if it started there. -/
theorem of_earlier (hx : LastCut xs m c) (hy : LastCut ys m c') (h : List.Forall₂ (· ≤ ·) xs ys)
    {b : Nat} (hlt : c.start < c'.start) (hb : Groupable (stageSum xs) b m c'.start)
    (hlast : stageSum xs c'.start xs.length ≤ b) : stageSum xs c.start xs.length ≤ b := by
  have hlength : xs.length = ys.length := h.length_eq
  have hlx := hx.start.lt
  have hly := hy.start.lt
  have hmx := hx.start.before.spans_le
  have hlimity := hy.below_limit.resolve_left (by omega)
  have htake : ∀ j, (xs.take j).sum ≤ (ys.take j).sum := fun j => sum_le_sum (List.forall₂_take j h)
  have hlimitx : (xs.take c'.start).sum < Count.limit := Nat.lt_of_le_of_lt (htake _) hlimity
  have hagree : ∀ i t, i < t → t ≤ c'.start → spanSum (prefixSums xs) i t = stageSum xs i t :=
    spanSum_agree (by omega) (Nat.le_of_lt hlimitx)
  have hcut : ∀ bound, Groupable (spanSum (prefixSums xs)) bound m c'.start →
      c.slowest ≤ max bound (spanSum (prefixSums xs) c'.start xs.length) := by
    intro bound hbound
    exact hx.right.least _ ⟨c'.start, by omega, hbound.weaken (Nat.le_max_left _ _),
      Nat.le_max_right _ _⟩
  have hleft := hx.start.last
  by_cases hlimit : (xs.take xs.length).sum ≤ Count.limit
  · -- no sum reaches the limit: the bound of the cut is right for the last stage
    have hbound := hcut b (hb.mono (Nat.le_refl b) fun i t hi ht => Nat.le_of_eq (hagree i t hi ht))
    have hspan : spanSum (prefixSums xs) c'.start xs.length ≤ stageSum xs c'.start xs.length :=
      spanSum_le (by omega) (Nat.le_refl _)
    rw [spanSum_agree (Nat.le_refl _) hlimit c.start xs.length hlx (Nat.le_refl _)] at hleft
    omega
  · -- the sums reach the limit: then both cuts leave as much
    have hgroup : Groupable (spanSum (prefixSums xs)) c'.slowest m c'.start := by
      refine hy.start.before.mono (Nat.le_refl _) fun i t hi ht => ?_
      rw [hagree i t hi ht, spanSum_agree (by omega) (Nat.le_of_lt hlimity) i t hi ht]
      exact stageSum_mono h i t
    have hbound := hcut c'.slowest hgroup
    have hfirst := hy.start.earliest c.start hlt
      (hy.start.before.shorten (widening_spanSum ys) (by omega) hmx (by omega))
    have hsum := sum_take_add (Nat.le_of_lt hlt) xs
    have hsumy := sum_take_add (Nat.le_of_lt hlt) ys
    have hc := htake c.start
    have hn := htake xs.length
    rw [spanSum_eq (by omega) (Nat.le_refl _), ← hlength] at hfirst
    rw [spanSum_eq (by omega) (Nat.le_refl _)] at hbound hleft
    rw [stageSum_eq (by omega)] at hlast ⊢
    omega

end LastCut

/-- **Faster parts make no slower stage.** -/
theorem balancedStages_mono (h : List.Forall₂ (· ≤ ·) xs ys) (k b : Nat)
    (hy : ∀ s ∈ balancedStages ys k, Count.sum (s.slice ys) ≤ b) :
    ∀ s ∈ balancedStages xs k, Count.sum (s.slice xs) ≤ b := by
  have hlength : xs.length = ys.length := h.length_eq
  by_cases hys : ys = []
  · subst hys
    obtain rfl := List.length_eq_zero_iff.mp hlength
    exact hy
  have hxs : xs ≠ [] := fun hx => hys (List.length_eq_zero_iff.mp (by rw [← hlength, hx]; rfl))
  obtain ⟨m, hm⟩ : ∃ m, stageCount xs.length k = m + 1 :=
    Nat.exists_eq_succ_of_ne_zero (Nat.ne_of_gt (stageCount_pos _ _))
  have hm' : stageCount ys.length k = m + 1 := hlength ▸ hm
  obtain ⟨c, hc⟩ := exists_lastCut hxs hm
  obtain ⟨c', hc'⟩ := exists_lastCut hys hm'
  obtain ⟨hgroup, hlast⟩ := (hc'.stages_le_iff hys hm' b).mp hy
  have hlt := hc'.start.lt
  -- where the last stage of the slower items starts, the faster ones can be cut as well
  have hthere : Groupable (stageSum xs) b m c'.start :=
    hgroup.mono (Nat.le_refl b) fun i t _ _ => stageSum_mono h i t
  have hlast' : stageSum xs c'.start xs.length ≤ b := by
    have := stageSum_mono h c'.start ys.length
    rw [hlength]
    omega
  refine (hc.stages_le_iff hxs hm b).mpr ?_
  rcases Nat.lt_trichotomy c.start c'.start with hearlier | hsame | hlater
  · refine ⟨hthere.shorten (widening_stageSum xs) (by omega) hc.start.before.spans_le (by omega),
      ?_⟩
    exact hc.of_earlier hc' h hearlier hthere hlast'
  · rw [hsame]
    exact ⟨hthere, hlast'⟩
  · exact hc.of_later hc'.start.before.spans_le hlater hlast'

end Balanced

end DesignSpace
