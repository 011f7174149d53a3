/-
  Subject:   FINER STAGES COST HARDWARE AND SAVE TIME. Where the stages of one grouping are cut into
             those of another, the finer one needs no less hardware of any kind, holds no less
             memory for the arrays of its region, and starts runs at least as often. All of it holds
             at the limit of counts too, and where one of the groupings is a single stage.

  * `Span.Splits`: one grouping cuts the stages of another one;
  * `Span.Cuts`: the same as a relation that follows the cuts;
  * `Span.Splits.sum_le`: **where a span costs no more than the two it is cut into**, a grouping
    costs no more than a finer one;
  * `get_composeStages`: the hardware of stages, kind by kind;
  * `get_composeStages_le`, `Design.scopedStorage_le`, `pace_le`: hardware, memory and interval of
    a finer grouping;
  * `composeStages_finer`: **the trade** as a whole.
-/
import DesignSpace.Proofs.Estimate.Balanced
import DesignSpace.Proofs.Estimate.Counted

namespace DesignSpace

/-! ## 1. One grouping cuts another -/

namespace Span

variable {α : Type} {fine coarse : List Span} {i m j n : Nat} {cost : Span → Nat}

/-- Two groupings of `n` positions into spans that are not empty, where every span of the first one
    lies within a span of the second one. -/
structure Splits (fine coarse : List Span) (n : Nat) : Prop where
  rowFine : Trail fine.reverse n
  rowCoarse : Trail coarse.reverse n
  within : ∀ s ∈ fine, ∃ t ∈ coarse, t.start ≤ s.start ∧ s.stop ≤ t.stop

/-- Groupings of which the first cuts the second, both with the last span first: the last spans are
    the same, or the finer one is cut off the end of the coarser one. -/
inductive Cuts : List Span → List Span → Nat → Prop where
  | nil : Cuts [] [] 0
  | same {fine coarse : List Span} {i j : Nat} (hij : i < j) (h : Cuts fine coarse i) :
    Cuts (⟨i, j⟩ :: fine) (⟨i, j⟩ :: coarse) j
  | cut {fine coarse : List Span} {i m j : Nat} (him : i < m) (hmj : m < j)
    (h : Cuts fine (⟨i, m⟩ :: coarse) m) : Cuts (⟨m, j⟩ :: fine) (⟨i, j⟩ :: coarse) j

/-- Spans in a row that lie within those of another row are cut from them. -/
theorem Cuts.of_trail (hfine : Trail fine j) (hcoarse : Trail coarse j)
    (hwithin : ∀ s ∈ fine, ∃ t ∈ coarse, t.start ≤ s.start ∧ s.stop ≤ t.stop) :
    Cuts fine coarse j := by
  induction hfine generalizing coarse with
  | nil =>
      cases hcoarse with
      | nil => exact .nil
      | cons hij _ => exact absurd hij (Nat.not_lt_zero _)
  | @cons fine m j hmj hfine ih =>
      obtain ⟨hlast, hbefore⟩ := List.forall_mem_cons.mp hwithin
      cases hcoarse with
      | nil => exact absurd hmj (Nat.not_lt_zero _)
      | @cons coarse i _ hij hcoarse =>
          -- no span but the last one reaches up to the end
          have him : i ≤ m := by
            obtain ⟨t, ht, hstart, hstop⟩ := hlast
            rcases List.mem_cons.mp ht with rfl | ht
            · exact hstart
            · have := hcoarse.mem ht
              dsimp only at hstop
              omega
          rcases Nat.lt_or_eq_of_le him with him | rfl
          · refine .cut him hmj (ih (.cons him hcoarse) fun s hs => ?_)
            obtain ⟨t, ht, hstart, hstop⟩ := hbefore s hs
            rcases List.mem_cons.mp ht with rfl | ht
            · exact ⟨⟨i, m⟩, List.mem_cons_self, hstart, (hfine.mem hs).2⟩
            · exact ⟨t, List.mem_cons_of_mem _ ht, hstart, hstop⟩
          · refine .same hij (ih hcoarse fun s hs => ?_)
            obtain ⟨t, ht, hstart, hstop⟩ := hbefore s hs
            rcases List.mem_cons.mp ht with rfl | ht
            · have := hfine.mem hs
              dsimp only at hstart
              omega
            · exact ⟨t, ht, hstart, hstop⟩

/-- A span costs no more than the two that it is cut into. -/
def Sharing (cost : Span → Nat) : Prop :=
  ∀ ⦃i m j : Nat⦄, i < m → m < j → cost ⟨i, j⟩ ≤ cost ⟨i, m⟩ + cost ⟨m, j⟩

theorem Cuts.sum_le (hcost : Sharing cost) (h : Cuts fine coarse j) :
    (coarse.map cost).sum ≤ (fine.map cost).sum := by
  induction h with
  | nil => exact Nat.le_refl _
  | same hij _ ih =>
      rw [List.map_cons, List.map_cons, List.sum_cons, List.sum_cons]
      exact Nat.add_le_add_left ih _
  | cut him hmj _ ih =>
      have hcut := hcost him hmj
      rw [List.map_cons, List.sum_cons] at ih ⊢
      rw [List.map_cons, List.sum_cons]
      omega

/-- **Where cuts can only cost more, a finer grouping costs no less.** -/
theorem Splits.sum_le (hcost : Sharing cost) (h : Splits fine coarse n) :
    (coarse.map cost).sum ≤ (fine.map cost).sum := by
  have hsum := (Cuts.of_trail h.rowFine h.rowCoarse (by simpa using h.within)).sum_le hcost
  rwa [List.map_reverse, List.map_reverse, List.sum_reverse, List.sum_reverse] at hsum

/-- A finer grouping has no fewer spans. -/
theorem Splits.length_le (h : Splits fine coarse n) : coarse.length ≤ fine.length := by
  have hone : Sharing fun _ => 1 := fun _ _ _ _ _ => Nat.le_add_left 1 1
  simpa using h.sum_le hone

/-- A span holds what the two hold that it is cut into. -/
theorem slice_cut (him : i ≤ m) (hmj : m ≤ j) (xs : List α) :
    (mk i j).slice xs = (mk i m).slice xs ++ (mk m j).slice xs := by
  have hsize : j - i = (m - i) + (j - m) := by omega
  have hmiddle : i + (m - i) = m := by omega
  rw [slice, slice, slice, size, size, size, hsize, List.take_add, List.drop_drop, hmiddle]

end Span

/-! ## 2. Hardware, kind by kind -/

variable {parts parts' : List Metrics} {stages fine coarse : List Span} {k : ResourceKind}

namespace ResourceKind

/-- What two regions need of a kind that never run at the same time. -/
def shared : ResourceKind → Nat → Nat → Nat
  | storageElement => Count.add
  | _ => max

theorem shared_le (k : ResourceKind) (a b : Nat) : k.shared a b ≤ a + b := by
  cases k with
  | storageElement => exact Nat.min_le_left _ _
  | _ => exact Nat.max_le.mpr ⟨Nat.le_add_right _ _, Nat.le_add_left _ _⟩

instance (k : ResourceKind) : Std.Associative k.shared where
  assoc := by
    cases k with
    | storageElement => exact Count.add_assoc
    | _ => exact Nat.max_assoc

end ResourceKind

namespace Resources

theorem get_sequential (a b : Resources) (k : ResourceKind) :
    (a.sequential b).get k = k.shared (a.get k) (b.get k) := by
  cases k <;> rfl

theorem get_concurrent (a b : Resources) (k : ResourceKind) :
    (a.concurrent b).get k = Count.add (a.get k) (b.get k) := by
  cases k <;> rfl

end Resources

/-- What parts need of a kind one after the other. -/
def inTurn (k : ResourceKind) (parts : List Metrics) : Nat :=
  (compose .sequential parts).resources.get k

theorem inTurn_cons (k : ResourceKind) (first : Metrics) (rest : List Metrics) :
    inTurn k (first :: rest) =
      (rest.map fun p => p.resources.get k).foldl k.shared (first.resources.get k) :=
  Resources.get_foldl (fun a b => a.get_sequential b k) _ _

/-- **Parts share hardware one after the other**, so none of it is needed twice. -/
theorem inTurn_append_le (k : ResourceKind) (parts parts' : List Metrics) :
    inTurn k (parts ++ parts') ≤ inTurn k parts + inTurn k parts' := by
  cases parts with
  | nil => exact Nat.le_add_left _ _
  | cons first rest =>
      cases parts' with
      | nil =>
          rw [List.append_nil]
          exact Nat.le_add_right _ _
      | cons first' rest' =>
          rw [List.cons_append, inTurn_cons, inTurn_cons, inTurn_cons, List.map_append,
            List.foldl_append, List.map_cons, List.foldl_cons, List.foldl_assoc]
          exact k.shared_le _ _

/-- What counted parts need of a kind at the same time. -/
theorem get_dataflow (h : ∀ p ∈ parts, p.resources.Counted) (k : ResourceKind) :
    (compose .dataflow parts).resources.get k =
      Count.sum (parts.map fun p => p.resources.get k) := by
  cases parts with
  | nil => cases k <;> rfl
  | cons first rest =>
      have hfirst : Count.add 0 (first.resources.get k) = first.resources.get k := by
        rw [Count.add, Nat.zero_add]
        exact Nat.min_eq_left (h first List.mem_cons_self k)
      rw [Count.sum, List.map_cons, List.foldl_cons, hfirst]
      exact Resources.get_foldl (fun a b => a.get_concurrent b k) _ _

/-- **The hardware of stages that make up the whole**, kind by kind: each stage has its own, also
    where there is one stage only. -/
theorem get_composeStages (h : ∀ p ∈ parts, p.resources.Counted)
    (hstages : Span.Trail stages.reverse parts.length) (k : ResourceKind) :
    (composeStages parts stages).resources.get k =
      Count.sum (stages.map fun s => inTurn k (s.slice parts)) := by
  have hslices := Span.slices_of_trail hstages parts
  rw [List.reverse_reverse, List.take_length] at hslices
  unfold composeStages
  by_cases hone : stages.length ≤ 1
  · rw [if_pos hone]
    match stages, hone with
    | [], _ =>
        obtain rfl : [] = parts := hslices
        cases k <;> rfl
    | [s], _ =>
        rw [List.flatMap_singleton] at hslices
        show inTurn k parts = Count.add 0 (inTurn k (s.slice parts))
        rw [hslices, Count.add, Nat.zero_add]
        exact (Nat.min_eq_left (counted_compose h k)).symm
  · rw [if_neg hone, get_dataflow, List.map_map]
    · rfl
    · intro p hp
      obtain ⟨s, -, rfl⟩ := List.mem_map.mp hp
      exact counted_compose fun q hq => h q (List.mem_of_mem_drop (List.mem_of_mem_take hq))

/-- **Finer stages need no less hardware** of any kind. -/
theorem get_composeStages_le (h : ∀ p ∈ parts, p.resources.Counted)
    (hsplits : Span.Splits fine coarse parts.length) (k : ResourceKind) :
    (composeStages parts coarse).resources.get k ≤
      (composeStages parts fine).resources.get k := by
  have hshare : Span.Sharing fun s => inTurn k (s.slice parts) := by
    intro i m j him hmj
    dsimp only
    rw [Span.slice_cut (Nat.le_of_lt him) (Nat.le_of_lt hmj)]
    exact inTurn_append_le k _ _
  have hsum := hsplits.sum_le hshare
  rw [get_composeStages h hsplits.rowCoarse, get_composeStages h hsplits.rowFine, Count.sum_eq,
    Count.sum_eq]
  omega

/-! ## 3. Memory of a region -/

namespace Design

/-- The stages with a property, counted one by one. -/
theorem countP_eq_sum (p : Span → Bool) (stages : List Span) :
    stages.countP p = (stages.map fun s => if p s then 1 else 0).sum := by
  induction stages with
  | nil => rfl
  | cons s stages ih =>
      rw [List.countP_cons, ih, List.map_cons, List.sum_cons, Nat.add_comm]

/-- An array that a stage accesses is accessed by one of the stages that it is cut into. -/
theorem touchingStages_le {n : Nat} (children : List Nest) (name : String)
    (h : Span.Splits fine coarse n) :
    touchingStages children coarse name ≤ touchingStages children fine name := by
  rw [touchingStages, touchingStages, countP_eq_sum, countP_eq_sum]
  refine h.sum_le fun i m j him hmj => ?_
  rw [Span.slice_cut (Nat.le_of_lt him) (Nat.le_of_lt hmj), List.any_append]
  grind

/-- **Finer stages hold no less memory** for the arrays that live as long as their region. -/
theorem scopedStorage_le {k : Nat} (d : Design) (n : Nest) (h : Span.Splits fine coarse k) :
    d.scopedStorage n coarse ≤ d.scopedStorage n fine := by
  have hdouble : ∀ a : ArrayDecl, a.storageElements ≤ Count.mul a.storageElements 2 := by
    intro a
    have ha : a.storageElements ≤ Count.limit := Count.mul_le_limit _ _
    unfold Count.mul
    omega
  unfold scopedStorage
  dsimp only
  rw [Count.sum_eq, Count.sum_eq]
  refine Nat.le_min.mpr ⟨Nat.le_trans (Nat.min_le_left _ _) ?_, Nat.min_le_right _ _⟩
  refine List.sum_le_sum fun a _ => ?_
  have htouch := touchingStages_le n.children a.name h
  by_cases hcoarse : 1 < touchingStages n.children coarse a.name
  · rw [if_pos hcoarse, if_pos (Nat.lt_of_lt_of_le hcoarse htouch)]
  · rw [if_neg hcoarse]
    split
    · exact hdouble a
    · exact Nat.le_refl _

end Design

/-! ## 4. Interval -/

/-- **Finer stages keep a pace at least as high.** -/
theorem pace_le {xs : List Nat} (h : Span.Splits fine coarse xs.length) :
    pace xs fine ≤ pace xs coarse := by
  have hwhole : stageSum xs 0 xs.length = Count.sum xs := by
    rw [stageSum_eq (Nat.zero_le _), List.take_length, List.take_zero, List.sum_nil, Nat.sub_zero,
      Count.sum_eq]
  have hlength := h.length_le
  -- no stage of the finer grouping is slower than anything that it lies within
  have hwider : ∀ s ∈ fine, ∀ t : Span, t.start ≤ s.start → s.stop ≤ t.stop →
      t.stop ≤ xs.length → Count.sum (s.slice xs) ≤ Count.sum (t.slice xs) := by
    intro s hs t hstart hstop ht
    have hrow := h.rowFine.mem (List.mem_reverse.mpr hs)
    exact widening_stageSum xs hstart (Nat.le_of_lt hrow.1) hstop ht
  unfold pace
  by_cases hfine : fine.length ≤ 1
  · rw [if_pos hfine, if_pos (by omega)]
  · rw [if_neg hfine]
    refine foldl_max_le_iff.mpr ⟨Nat.zero_le _, fun x hx => ?_⟩
    obtain ⟨s, hs, rfl⟩ := List.mem_map.mp hx
    by_cases hcoarse : coarse.length ≤ 1
    · rw [if_pos hcoarse, ← hwhole]
      exact hwider s hs ⟨0, xs.length⟩ (Nat.zero_le _)
        (h.rowFine.mem (List.mem_reverse.mpr hs)).2 (Nat.le_refl _)
    · rw [if_neg hcoarse]
      obtain ⟨t, ht, hstart, hstop⟩ := h.within s hs
      have hrow := h.rowCoarse.mem (List.mem_reverse.mpr ht)
      exact Nat.le_trans (hwider s hs t hstart hstop hrow.2)
        ((foldl_max_le_iff.mp (Nat.le_refl _)).2 _ (List.mem_map_of_mem ht))

/-- Counts of cycles that are known, as a list. -/
theorem exists_latencies (h : ∀ p ∈ parts, ∃ c ≤ Count.limit, p.latency = .known c) :
    ∃ xs : List Nat, parts.map Metrics.latency = xs.map Cycles.known ∧
      ∀ x ∈ xs, x ≤ Count.limit := by
  induction parts with
  | nil => exact ⟨[], rfl, fun x hx => absurd hx List.not_mem_nil⟩
  | cons p parts ih =>
      obtain ⟨⟨c, hc, hp⟩, hparts⟩ := List.forall_mem_cons.mp h
      obtain ⟨xs, hxs, hlimit⟩ := ih hparts
      exact ⟨c :: xs, by rw [List.map_cons, List.map_cons, hp, hxs],
        List.forall_mem_cons.mpr ⟨hc, hlimit⟩⟩

/-! ## 5. The trade -/

/-- **Finer stages trade hardware for time, and never the reverse.** Where the stages of a grouping
    of some parts are cut into those of a finer one, the finer grouping needs no less hardware of
    any kind and holds no less memory for the arrays of the region, whichever region it is. If all
    latencies of the parts are known, both intervals are, and that of the finer grouping is not
    larger. -/
theorem composeStages_finer (d : Design) (n : Nest) (hsplits : Span.Splits fine coarse parts.length)
    (hcounted : ∀ p ∈ parts, p.resources.Counted) :
    (∀ k, (composeStages parts coarse).resources.get k ≤
      (composeStages parts fine).resources.get k) ∧
    d.scopedStorage n coarse ≤ d.scopedStorage n fine ∧
    ((∀ p ∈ parts, ∃ c ≤ Count.limit, p.latency = .known c) →
      ∃ a b, (composeStages parts fine).interval = .known a ∧
        (composeStages parts coarse).interval = .known b ∧ a ≤ b) := by
  refine ⟨get_composeStages_le hcounted hsplits, d.scopedStorage_le n hsplits, fun hknown => ?_⟩
  obtain ⟨xs, hxs, hlimit⟩ := exists_latencies hknown
  exact ⟨_, _, interval_composeStages hxs hlimit fine, interval_composeStages hxs hlimit coarse,
    pace_le (length_latencies hxs ▸ hsplits)⟩

namespace Smoothing

/-- Two loops that each need hardware of every kind. -/
def loops : List Metrics :=
  [⟨.known 34, .known 34, ⟨2, 2, 1, 1⟩⟩, ⟨.known 16, .known 16, ⟨1, 1, 1, 1⟩⟩]

/-- One stage for each loop instead of one for both. -/
theorem splits_loops : Span.Splits [⟨0, 1⟩, ⟨1, 2⟩] [⟨0, 2⟩] loops.length where
  rowFine := .cons (by decide) (.cons (by decide) .nil)
  rowCoarse := .cons (by decide) .nil
  within := by decide

/-- Two loops in one stage and in two. -/
theorem composeStages_finer_loops :
    Span.Splits [⟨0, 1⟩, ⟨1, 2⟩] [⟨0, 2⟩] loops.length ∧
    (∀ p ∈ loops, p.resources.Counted) ∧
    (∀ k, (composeStages loops [⟨0, 2⟩]).resources.get k ≤
      (composeStages loops [⟨0, 1⟩, ⟨1, 2⟩]).resources.get k) ∧
    design.scopedStorage design.top [⟨0, 2⟩] ≤
      design.scopedStorage design.top [⟨0, 1⟩, ⟨1, 2⟩] ∧
    ∃ a b, (composeStages loops [⟨0, 1⟩, ⟨1, 2⟩]).interval = .known a ∧
      (composeStages loops [⟨0, 2⟩]).interval = .known b ∧ a ≤ b := by
  have hcounted : ∀ p ∈ loops, p.resources.Counted := by
    simp only [Resources.counted_iff]
    decide
  have hknown : ∀ p ∈ loops, ∃ c ≤ Count.limit, p.latency = .known c :=
    List.forall_mem_cons.mpr ⟨⟨34, by decide, rfl⟩,
      List.forall_mem_cons.mpr ⟨⟨16, by decide, rfl⟩, fun _ hp => absurd hp List.not_mem_nil⟩⟩
  obtain ⟨hresources, hstorage, hinterval⟩ :=
    composeStages_finer design design.top splits_loops hcounted
  exact ⟨splits_loops, hcounted, hresources, hstorage, hinterval hknown⟩

/-- The array that one loop fills and the other one reads is there twice, and runs start every 34
    instead of every 50 cycles. -/
example : design.scopedStorage design.top [⟨0, 1⟩, ⟨1, 2⟩] =
      2 * design.scopedStorage design.top [⟨0, 2⟩] ∧
    (composeStages loops [⟨0, 1⟩, ⟨1, 2⟩]).interval = .known 34 ∧
    (composeStages loops [⟨0, 2⟩]).interval = .known 50 := by decide

end Smoothing

end DesignSpace
