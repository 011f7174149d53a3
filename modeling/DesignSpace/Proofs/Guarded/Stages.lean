/-
  Subject:   GUARDED STAGES. Grouping parts into stages reads tables of sums and of cuts by
             position, and the stages that come out are used as positions of the parts. None of
             this traps.

  * `Guarded.evenStages_eq`: **even stages**, dealt out one after the other;
  * `Guarded.fill_eq`: tables that are filled place by place;
  * `Guarded.balancedStages_eq`: **balanced stages**, with the tables of sums and of cuts;
  * `Guarded.composeStages_eq`, `touchingStages_eq`: parts picked by stages.
-/
import Mathlib.Data.List.Range
import DesignSpace.Compose
import DesignSpace.Cost.Memory
import DesignSpace.Proofs.Guarded.Arithmetic
import DesignSpace.Proofs.Stages

namespace DesignSpace

namespace Guarded

variable {α : Type} {n k : Nat}

/-! ## 1. Even stages -/

/-- The number of spans that `n` items are grouped into when `k` are asked for. -/
def stageCount (n k : Nat) : Guarded Nat := clamp 1 (max n 1) k

theorem stageCount_eq (n k : Nat) : stageCount n k = .ok (DesignSpace.stageCount n k) :=
  clamp_eq (Nat.le_max_right n 1) k

/-- Spans dealt out one after the other, the first `extra` ones with an item more. -/
def deal (size extra : Nat) : (start : Nat) → (turns : List Nat) → Guarded (List Span)
  | _, [] => .ok []
  | start, i :: turns => do
    let stop ← add (← add start size) (if i < extra then 1 else 0)
    let spans ← deal size extra stop turns
    return ⟨start, stop⟩ :: spans

/-- Spans of nearly equal size, the larger ones first. -/
def evenStages (n k : Nat) : Guarded (List Span) := do
  let k ← stageCount n k
  let size ← div n k
  let extra ← mod n k
  deal size extra 0 (List.range k)

/-- **Dealing out does not overflow** as long as there are no more items than the limit. -/
theorem deal_eq (size extra : Nat) {start : Nat} {turns : List Nat}
    (h : start + (turns.map fun i => size + if i < extra then 1 else 0).sum ≤ Count.limit) :
    deal size extra start turns =
      .ok (Span.consecutive start (turns.map fun i => size + if i < extra then 1 else 0)) := by
  induction turns generalizing start with
  | nil => rfl
  | cons i turns ih =>
      rw [List.map_cons, List.sum_cons] at h
      have hstop : start + size + (if i < extra then 1 else 0) ≤ Count.limit := by omega
      have hrest := @ih (start + size + if i < extra then 1 else 0) (by omega)
      unfold deal
      rw [add_eq (by omega), ok_bind, add_eq hstop, ok_bind, hrest, ok_bind, List.map_cons,
        Span.consecutive, Nat.add_assoc]
      rfl

/-- The sizes that are dealt out. -/
theorem map_range_sizes (size : Nat) {extra k : Nat} (h : extra ≤ k) :
    (List.range k).map (fun i => size + if i < extra then 1 else 0) =
      List.replicate extra (size + 1) ++ List.replicate (k - extra) size := by
  refine List.ext_getElem ?_ fun i hi hi' => ?_
  · simp
    omega
  · rw [List.getElem_map, List.getElem_range, List.getElem_append]
    by_cases hlt : i < extra
    · simp [hlt]
    · simp [hlt]

/-- **Even stages do not trap.** -/
theorem evenStages_eq (hn : n ≤ Count.limit) (k : Nat) :
    evenStages n k = .ok (DesignSpace.evenStages n k) := by
  have hpos := stageCount_pos n k
  have hmod := Nat.mod_lt n hpos
  have hsizes := map_range_sizes (n / DesignSpace.stageCount n k) (Nat.le_of_lt hmod)
  unfold evenStages
  rw [stageCount_eq, ok_bind, div_eq (Nat.ne_of_gt hpos), ok_bind, mod_eq (Nat.ne_of_gt hpos),
    ok_bind, deal_eq, hsizes]
  · rfl
  · rw [hsizes, sum_even_sizes n hpos, Nat.zero_add]
    exact hn

/-! ## 2. Tables -/

/-- A table filled place by place: each turn tells a place, and what is put there, from the table so
    far. -/
def fill (step : List α → (turn : Nat) → Guarded (Nat × α)) (table : List α) (turns : List Nat) :
    Guarded (List α) :=
  turns.foldlM (fun table turn => do
    let (place, x) ← step table turn
    put table place x) table

/-- **A table is filled** if each turn tells the next place, and what stands there in the end. -/
theorem fill_eq {step : List α → Nat → Guarded (Nat × α)} {full : List α} {blank : α}
    {first start m : Nat} (hm : start + m = full.length)
    (h : ∀ i < m, ∃ x, full[start + i]? = some x ∧
      step (full.take (start + i) ++ List.replicate (m - i) blank) (first + i) =
        .ok (start + i, x)) :
    fill step (full.take start ++ List.replicate m blank) (List.range' first m) = .ok full := by
  -- the places before `start` hold what they hold in the end, and those from there on are blank
  induction m generalizing first start with
  | zero =>
      rw [Nat.add_zero] at hm
      simp [fill, hm]
  | succ m ih =>
      obtain ⟨x, hx, hfirst⟩ := h 0 (Nat.succ_pos m)
      have hstep : step (full.take start ++ List.replicate (m + 1) blank) first =
        .ok (start, x) := hfirst
      have hlt : start < full.length := by omega
      have hlength : (full.take start).length = start := by
        rw [List.length_take]
        omega
      have htake : full.take start ++ [x] = full.take (start + 1) := by
        rw [List.take_add_one]
        exact congrArg (full.take start ++ ·) (congrArg Option.toList hx.symm)
      have hput : (full.take start ++ List.replicate (m + 1) blank).set start x =
          full.take (start + 1) ++ List.replicate m blank := by
        rw [List.set_append_right _ _ (Nat.le_of_eq hlength), hlength, Nat.sub_self,
          List.replicate_succ, List.set_cons_zero, ← htake, List.append_assoc,
          List.singleton_append]
      have hplace : start < (full.take start ++ List.replicate (m + 1) blank).length := by
        rw [List.length_append, hlength, List.length_replicate]
        omega
      have hrest := @ih (first + 1) (start + 1) (by omega) fun i hi => by
        have hnext := h (i + 1) (by omega)
        rwa [Nat.add_sub_add_right, ← Nat.add_assoc, ← Nat.add_assoc, Nat.add_right_comm start,
          Nat.add_right_comm first] at hnext
      rw [List.range'_succ, fill, List.foldlM_cons, hstep, ok_bind]
      dsimp only
      rw [put_eq hplace, hput, ok_bind]
      exact hrest

/-! ## 3. Balanced stages -/

/-- The sums of the first `0`, `1`, … items. -/
def prefixSums (xs : List Nat) : Guarded (List Nat) := do
  let size ← add xs.length 1
  fill (fun sums i => do
    let before ← item sums i
    let x ← item xs i
    return (← add i 1, Count.add before x)) (List.replicate size 0) (List.range xs.length)

/-- The best last span up to `stop`, where it may start at some positions. -/
def bestCut (sums : List Nat) (row : List (Option Cut)) (stop : Nat) :
    (starts : List Nat) → Option Cut → Guarded (Option Cut)
  | [], best => .ok best
  | start :: starts, best => do
    match ← item row start with
    | none => bestCut sums row stop starts best
    | some before =>
      let slowest := max before.slowest ((← item sums stop) - (← item sums start))
      let better := match best with
        | some b => decide (slowest < b.slowest)
        | none => true
      bestCut sums row stop starts (if better then some ⟨slowest, start⟩ else best)

/-- The best cuts of the first `0`, `1`, … items into one span more than in the row before. -/
def nextRow (sums : List Nat) (row : List (Option Cut)) (width : Nat) :
    Guarded (List (Option Cut)) :=
  fill (fun _ stop => do return (stop, ← bestCut sums row stop (List.range stop) none))
    (List.replicate width none) (List.range width)

/-- The rows for `0`, `1`, …, `k` spans, each from the row before. -/
def cutTable (sums : List Nat) (width k : Nat) : Guarded (List (List (Option Cut))) := do
  let blank := List.replicate width none
  let first ← put blank 0 (some ⟨0, 0⟩)
  let table ← put (List.replicate (← add k 1) blank) 0 first
  fill (fun table s => do
    let row ← item table (← sub s 1)
    return (s, ← nextRow sums row width)) table (List.range' 1 k)

/-- The spans up to a position, the last one first, read off the table. -/
def traceCuts (table : List (List (Option Cut))) : (k stop : Nat) → Guarded (List Span)
  | 0, _ => .ok []
  | k + 1, stop => do
    let cut ← item (← item table (k + 1)) stop
    let start := (cut.map Cut.start).getD 0
    let spans ← traceCuts table k start
    return ⟨start, stop⟩ :: spans

/-- Consecutive spans whose largest sum is as small as possible. -/
def balancedStages (xs : List Nat) (k : Nat) : Guarded (List Span) := do
  let k ← stageCount xs.length k
  if xs.length = 0 then return [⟨0, 0⟩]
  else
    let sums ← prefixSums xs
    let table ← cutTable sums (← add xs.length 1) k
    let spans ← traceCuts table k xs.length
    return spans.reverse

theorem prefixSums_eq {xs : List Nat} (h : xs.length + 1 ≤ Count.limit) :
    prefixSums xs = .ok (DesignSpace.prefixSums xs) := by
  have hlength := length_prefixSums xs
  have hfirst : (DesignSpace.prefixSums xs).take 1 = [0] := by
    cases xs <;> simp [DesignSpace.prefixSums]
  have hsum : ∀ i ≤ xs.length, (DesignSpace.prefixSums xs)[i]? = some (Count.sum (xs.take i)) :=
    fun i hi => scanl_getElem? 0 xs hi
  have hfill := @fill_eq _ (fun sums i => do
    let before ← item sums i
    let x ← item xs i
    return (← add i 1, Count.add before x)) (DesignSpace.prefixSums xs) 0 0 1 xs.length
    (by omega) fun i hi => ⟨Count.add (Count.sum (xs.take i)) xs[i], ?_, ?_⟩
  · rw [hfirst] at hfill
    unfold prefixSums
    rw [add_eq h, ok_bind, List.range_eq_range']
    exact hfill
  · rw [Nat.add_comm, hsum (i + 1) hi, List.take_add_one, List.getElem?_eq_getElem hi]
    exact congrArg some List.foldl_append
  · have hbefore : ((DesignSpace.prefixSums xs).take (1 + i) ++
        List.replicate (xs.length - i) 0)[0 + i]? = some (Count.sum (xs.take i)) := by
      rw [List.getElem?_append_left (by rw [List.length_take]; omega),
        List.getElem?_take_of_lt (by omega), Nat.zero_add, hsum i (Nat.le_of_lt hi)]
    rw [item_eq hbefore, ok_bind, Nat.zero_add, item_eq (List.getElem?_eq_getElem hi), ok_bind,
      add_eq (by omega), ok_bind, Nat.add_comm i 1]
    rfl

section Tables

variable {sums : List Nat} {row : List (Option Cut)} {best : Option Cut}

/-- The search for the best cut stays within the row and the sums. -/
theorem bestCut_eq (hrow : row.length = sums.length) {stop start size : Nat}
    (hsize : start + size = stop) (hstop : stop < sums.length) :
    bestCut sums row stop (List.range' start size) best =
      .ok (DesignSpace.bestCut (sums.getD stop 0) start
        (((row.zip sums).drop start).take size) best) := by
  induction size generalizing start best with
  | zero => rfl
  | succ size ih =>
      have hlt : start < row.length := by omega
      have hzip : start < (row.zip sums).length := by
        rw [List.length_zip]
        omega
      have hrest := fun best => @ih best (start + 1) (by omega)
      rw [List.range'_succ, List.drop_eq_getElem_cons hzip, List.take_succ_cons,
        List.getElem_zip, bestCut, item_eq (List.getElem?_eq_getElem hlt), ok_bind]
      cases hcut : row[start] with
      | none => exact hrest best
      | some before =>
          have hsum : sums[start]? = some sums[start] := List.getElem?_eq_getElem (by omega)
          dsimp only
          rw [item_eq (Row.getElem?_of_lt hstop), ok_bind, item_eq hsum, ok_bind, hrest]
          rfl

theorem nextRow_eq (hrow : row.length = sums.length) :
    nextRow sums row sums.length = .ok (DesignSpace.nextRow sums row) := by
  have hlength : (DesignSpace.nextRow sums row).length = sums.length := List.length_mapIdx
  unfold nextRow
  rw [List.range_eq_range']
  refine @fill_eq _ _ (DesignSpace.nextRow sums row) none 0 0 sums.length (by omega)
    fun stop hstop => ?_
  rw [Nat.zero_add, List.range_eq_range', bestCut_eq hrow (Nat.zero_add stop) hstop,
    List.drop_zero]
  refine ⟨_, ?_, rfl⟩
  rw [DesignSpace.nextRow, List.getElem?_mapIdx, Row.getElem?_of_lt hstop]
  rfl

/-- The table of cuts is filled row by row, each row from the one above it. -/
theorem cutTable_eq (hsums : sums ≠ []) (hk : k + 1 ≤ Count.limit) :
    cutTable sums sums.length k = .ok ((List.range (k + 1)).map (Row.of sums)) := by
  have hpos := List.length_pos_iff.mpr hsums
  have hrow : ∀ i < k + 1,
      ((List.range (k + 1)).map (Row.of sums))[i]? = some (Row.of sums i) := by
    intro i hi
    rw [List.getElem?_map, List.getElem?_range hi]
    rfl
  have hfirst : (List.replicate sums.length none).set 0 (some ⟨0, 0⟩) = Row.of sums 0 := by
    cases sums with
    | nil => exact absurd rfl hsums
    | cons x sums => rfl
  have htop : (List.replicate (k + 1) (List.replicate sums.length none)).set 0 (Row.of sums 0) =
      ((List.range (k + 1)).map (Row.of sums)).take 1 ++
        List.replicate k (List.replicate sums.length none) := by
    rw [List.range_succ_eq_map]
    rfl
  unfold cutTable
  dsimp only
  rw [put_eq (by rwa [List.length_replicate]), ok_bind, add_eq hk, ok_bind,
    put_eq (by rw [List.length_replicate]; exact Nat.succ_pos k), ok_bind, hfirst, htop]
  refine fill_eq (by rw [List.length_map, List.length_range, Nat.add_comm]) fun i hi =>
    ⟨_, hrow _ (by omega), ?_⟩
  have hbefore : (((List.range (k + 1)).map (Row.of sums)).take (1 + i) ++
      List.replicate (k - i) (List.replicate sums.length none))[i]? = some (Row.of sums i) := by
    rw [List.getElem?_append_left (by rw [List.length_take]; simp; omega),
      List.getElem?_take_of_lt (by omega), hrow i (by omega)]
  rw [sub_eq (Nat.le_add_right 1 i), ok_bind, Nat.add_sub_cancel_left, item_eq hbefore, ok_bind,
    nextRow_eq (Row.length_of hsums i), ok_bind, Nat.add_comm 1 i]
  rfl

/-- **Reading the spans off the table** never leaves it: each span starts before it stops. -/
theorem traceCuts_eq (hsums : sums ≠ []) {table : List (List (Option Cut))} {m k stop : Nat}
    (htable : table = (List.range (m + 1)).map (Row.of sums)) (hk : k ≤ m)
    (hstop : stop < sums.length) :
    traceCuts table k stop = .ok (DesignSpace.traceCuts (Row.upTo sums k) stop) := by
  -- by induction on the spans: the next one stops where this one starts, within the sums again
  induction k generalizing stop with
  | zero => rfl
  | succ k ih =>
      have hrow : table[k + 1]? = some (Row.of sums (k + 1)) := by
        rw [htable, List.getElem?_map, List.getElem?_range (by omega)]
        rfl
      have hlength := Row.length_of hsums (k + 1)
      have hcell : (Row.of sums (k + 1))[stop]? = some (Row.of sums (k + 1))[stop] :=
        List.getElem?_eq_getElem (by omega)
      have hstart : ((Row.of sums (k + 1))[stop].map Cut.start).getD 0 < sums.length := by
        cases hcut : (Row.of sums (k + 1))[stop] with
        | none => exact Nat.zero_lt_of_lt hstop
        | some c =>
            have hfound : Row.cut? (Row.of sums (k + 1)) stop = some c := by
              rw [Row.cut?, hcell, hcut]
              rfl
            exact Nat.lt_trans (Row.start_of hsums hstop hfound).lt hstop
      unfold traceCuts
      rw [item_eq hrow, ok_bind, item_eq hcell, ok_bind]
      dsimp only
      rw [ih (by omega) hstart, ok_bind, Row.upTo, DesignSpace.traceCuts, hcell]
      rfl

end Tables

/-- **Balanced stages do not trap.** -/
theorem balancedStages_eq {xs : List Nat} (h : xs.length + 1 ≤ Count.limit) (k : Nat) :
    balancedStages xs k = .ok (DesignSpace.balancedStages xs k) := by
  unfold balancedStages
  rw [stageCount_eq, ok_bind]
  by_cases hxs : xs = []
  · subst hxs
    rfl
  · have hn : 0 < xs.length := List.length_pos_iff.mpr hxs
    have hk := stageCount_le hn k
    have hsums := prefixSums_ne_nil xs
    have hlast : xs.length < (DesignSpace.prefixSums xs).length := by
      rw [length_prefixSums]
      exact Nat.lt_succ_self _
    rw [if_neg (Nat.ne_of_gt hn), prefixSums_eq h, ok_bind, add_eq h, ok_bind,
      ← length_prefixSums, cutTable_eq hsums (by omega), ok_bind,
      traceCuts_eq hsums rfl (Nat.le_refl _) hlast, ok_bind, DesignSpace.balancedStages_eq hxs]
    rfl

/-! ## 4. Parts picked by stages -/

/-- Spans of positions of a list. -/
def Within (spans : List Span) (n : Nat) : Prop := ∀ s ∈ spans, s.start ≤ s.stop ∧ s.stop ≤ n

theorem within_consecutive {start n : Nat} {sizes : List Nat} (h : start + sizes.sum ≤ n) :
    Within (Span.consecutive start sizes) n := by
  induction sizes generalizing start with
  | nil => exact nofun
  | cons size sizes ih =>
      rw [List.sum_cons] at h
      intro s hs
      rcases List.mem_cons.mp hs with rfl | hs
      · exact ⟨Nat.le_add_right start size, by dsimp only; omega⟩
      · exact ih (by omega) s hs

theorem within_evenStages (n k : Nat) : Within (DesignSpace.evenStages n k) n := by
  refine within_consecutive (Nat.le_of_eq ?_)
  rw [sum_even_sizes n (stageCount_pos n k), Nat.zero_add]

theorem within_balancedStages (xs : List Nat) (k : Nat) :
    Within (DesignSpace.balancedStages xs k) xs.length := by
  by_cases hxs : xs = []
  · subst hxs
    intro s hs
    obtain rfl : s = ⟨0, 0⟩ := List.mem_singleton.mp hs
    exact ⟨Nat.le_refl 0, Nat.le_refl 0⟩
  · intro s hs
    obtain ⟨c, hc⟩ := exists_cut_balanced hxs k
    have hlast : xs.length < (DesignSpace.prefixSums xs).length := by
      rw [length_prefixSums]
      exact Nat.lt_succ_self _
    obtain ⟨htrail, -, -⟩ := Row.trail_of_cut (prefixSums_ne_nil xs) hlast hc
    rw [DesignSpace.balancedStages_eq hxs, List.mem_reverse] at hs
    obtain ⟨hlt, hle⟩ := htrail.mem hs
    exact ⟨Nat.le_of_lt hlt, hle⟩

/-- The metrics of parts that are grouped into stages. -/
def composeStages (parts : List Metrics) (stages : List Span) : Guarded Metrics :=
  if stages.length ≤ 1 then .ok (compose .sequential parts)
  else do
    let groups ← stages.mapM fun s => do
      let group ← slice s parts
      return compose .sequential group
    return compose .dataflow groups

theorem composeStages_eq {parts : List Metrics} {stages : List Span}
    (h : Within stages parts.length) :
    composeStages parts stages = .ok (DesignSpace.composeStages parts stages) := by
  unfold composeStages DesignSpace.composeStages
  split
  · rfl
  · rw [mapM_eq (g := fun s => compose .sequential (s.slice parts)) fun s hs => by
      rw [slice_eq (h s hs).1 (h s hs).2]; rfl]
    rfl

/-- The stages of a nest that access an array. -/
def touchingStages (children : List Nest) (stages : List Span) (name : String) : Guarded Nat := do
  let touching ← stages.mapM fun s => do
    let group ← slice s children
    return group.any fun child => child.accesses.any fun x => x.array = name
  return touching.countP id

theorem touchingStages_eq {children : List Nest} {stages : List Span}
    (h : Within stages children.length) (name : String) :
    touchingStages children stages name =
      .ok (Design.touchingStages children stages name) := by
  unfold touchingStages Design.touchingStages
  rw [mapM_eq (g := fun s => (s.slice children).any fun child =>
    child.accesses.any fun x => x.array = name) fun s hs => by
      rw [slice_eq (h s hs).1 (h s hs).2]; rfl]
  rw [ok_bind, pure_eq, List.countP_map]
  rfl

end Guarded

end DesignSpace
