/-
  Subject:   PARTS IN ANY ORDER. What parts come to as a whole is one operation, done once for each
             part after the first. The operations on cycles and on hardware are associative and
             commutative, at the limit of counts and where cycles are unknown too.

  * `together`: what a list comes to under an operation, nothing for no items;
  * `together_perm`, `together_flatten`: **neither the order nor the grouping matters**;
  * `compose_eq`: a composition joins the costs of the parts and closes the result once;
  * `compose_perm`, `compose_groups`, `composeStages_singles`: order, groups, one part a stage;
  * `compose_rearranged`: all of it, for every list of parts.
-/
import Mathlib.Data.List.Perm.Basic
import DesignSpace.Compose

namespace DesignSpace

/-! ## 1. A list under an operation -/

section Together

variable {α : Type} {op : α → α → α}

/-- What the items of a list come to under an operation, the first one taken as it is. -/
def together (op : α → α → α) (xs : List α) : Option α :=
  (xs.map some).foldl (Option.merge op) none

@[simp]
theorem together_cons (x : α) (xs : List α) : together op (x :: xs) = some (xs.foldl op x) := by
  show (xs.map some).foldl (Option.merge op) (some x) = some (xs.foldl op x)
  induction xs generalizing x with
  | nil => rfl
  | cons y xs ih => exact ih (op x y)

/-- Two lists that have the same items come to the same. -/
theorem together_perm [Std.Associative op] [Std.Commutative op] {xs ys : List α}
    (h : xs.Perm ys) : together op xs = together op ys :=
  (h.map some).foldl_op_eq

@[simp]
theorem together_append [Std.Associative op] (xs ys : List α) :
    together op (xs ++ ys) = (together op xs).merge op (together op ys) := by
  rw [together, List.map_append, List.foldl_append]
  show (ys.map some).foldl (Option.merge op) (together op xs) = _
  rw [← Option.merge_none_right (a := together op xs) (f := op), List.foldl_assoc,
    Option.merge_none_right]
  rfl

/-- What the groups of a list come to, one after the other, is what the list comes to. -/
theorem together_flatten [Std.Associative op] (groups : List (List α)) :
    together op groups.flatten = (groups.map (together op)).foldl (Option.merge op) none := by
  induction groups with
  | nil => rfl
  | cons g groups ih =>
      -- a fold that starts from the first group is the first group and then a fold from nothing
      have hassoc := @List.foldl_assoc _ (Option.merge op) _ (groups.map (together op))
        (together op g) none
      rw [Option.merge_none_right] at hassoc
      rw [List.flatten_cons, together_append, ih, ← hassoc, List.map_cons, List.foldl_cons,
        Option.merge_none_left]

end Together

/-! ## 2. Cycles and hardware -/

namespace Cycles

theorem add_comm (a b : Cycles) : a.add b = b.add a := by
  cases a <;> cases b <;> simp [add, Count.add_comm]

theorem add_assoc (a b c : Cycles) : (a.add b).add c = a.add (b.add c) := by
  cases a <;> cases b <;> cases c <;> simp [add, Count.add_assoc]

theorem max_comm (a b : Cycles) : a.max b = b.max a := by
  cases a <;> cases b <;> simp [max, Nat.max_comm]

theorem max_assoc (a b c : Cycles) : (a.max b).max c = a.max (b.max c) := by
  cases a <;> cases b <;> cases c <;> simp [max, Nat.max_assoc]

end Cycles

namespace Resources

theorem sequential_comm (a b : Resources) : a.sequential b = b.sequential a := by
  simp [sequential, Nat.max_comm, Count.add_comm]

theorem sequential_assoc (a b c : Resources) :
    (a.sequential b).sequential c = a.sequential (b.sequential c) := by
  simp [sequential, Nat.max_assoc, Count.add_assoc]

theorem concurrent_comm (a b : Resources) : a.concurrent b = b.concurrent a := by
  simp [concurrent, Count.add_comm]

theorem concurrent_assoc (a b c : Resources) :
    (a.concurrent b).concurrent c = a.concurrent (b.concurrent c) := by
  simp [concurrent, Count.add_assoc]

end Resources

/-! ## 3. What a part adds to the whole -/

variable {kind : Composition} {parts parts' : List Metrics}

/-- What a composition takes of the metrics of a part. -/
def Metrics.share (m : Metrics) : Cycles × Resources := (m.latency, m.resources)

namespace Composition

/-- Two shares taken together. -/
def join : Composition → Cycles × Resources → Cycles × Resources → Cycles × Resources
  | sequential, a, b => (a.1.add b.1, a.2.sequential b.2)
  | dataflow, a, b => (a.1.max b.1, a.2.concurrent b.2)

/-- The metrics of a whole from the shares of its parts and from how many there are. -/
def close : Composition → Nat → Cycles × Resources → Metrics
  | sequential, _, s => ⟨s.1, s.1, s.2⟩
  | dataflow, n, s => ⟨s.1.add (.known (Count.mul stageSkew (n - 1))), s.1, s.2⟩

instance (kind : Composition) : Std.Associative kind.join where
  assoc a b c := by
    cases kind with
    | sequential => simp only [join, Cycles.add_assoc, Resources.sequential_assoc]
    | dataflow => simp only [join, Cycles.max_assoc, Resources.concurrent_assoc]

instance (kind : Composition) : Std.Commutative kind.join where
  comm a b := by
    cases kind with
    | sequential => simp only [join, Cycles.add_comm, Resources.sequential_comm]
    | dataflow => simp only [join, Cycles.max_comm, Resources.concurrent_comm]

end Composition

/-- Shares joined one after the other are cycles and hardware joined side by side. -/
theorem foldl_join (kind : Composition) (s : Cycles × Resources) (parts : List Metrics) :
    (parts.map Metrics.share).foldl kind.join s =
      match kind with
      | .sequential => (parts.foldl (fun c m => c.add m.latency) s.1,
          parts.foldl (fun r m => r.sequential m.resources) s.2)
      | .dataflow => (parts.foldl (fun c m => c.max m.latency) s.1,
          parts.foldl (fun r m => r.concurrent m.resources) s.2) := by
  induction parts generalizing s with
  | nil => cases kind <;> rfl
  | cons p parts ih =>
      rw [List.map_cons, List.foldl_cons, ih]
      cases kind <;> rfl

/-- **A composition joins the shares of the parts**, and closes the result once. -/
theorem compose_eq (kind : Composition) (parts : List Metrics) : compose kind parts =
    ((together kind.join (parts.map Metrics.share)).map (kind.close parts.length)).getD .empty := by
  cases parts with
  | nil => rfl
  | cons first rest =>
      rw [List.map_cons, together_cons, foldl_join]
      cases kind <;> rfl

/-! ## 4. Order and groups -/

/-- **The order of the parts does not matter.** -/
theorem compose_perm (h : parts'.Perm parts) : compose kind parts' = compose kind parts := by
  rw [compose_eq, compose_eq, together_perm (h.map Metrics.share), h.length_eq]

/-- The whole that parts make up in turns has their joint share. -/
theorem share_sequential (h : parts ≠ []) :
    some (compose .sequential parts).share =
      together Composition.sequential.join (parts.map Metrics.share) := by
  cases parts with
  | nil => exact absurd rfl h
  | cons first rest => rw [compose_eq, List.map_cons, together_cons]; rfl

/-- **The grouping of parts that take turns does not matter.** -/
theorem compose_groups (groups : List (List Metrics)) (h : ∀ g ∈ groups, g ≠ []) :
    compose .sequential (groups.map (compose .sequential)) =
      compose .sequential groups.flatten := by
  -- the composition of a group has the joint share of the group, which is not nothing
  have hshares : together Composition.sequential.join
        ((groups.map (compose .sequential)).map Metrics.share) =
      together Composition.sequential.join (groups.flatten.map Metrics.share) := by
    rw [List.map_flatten, together_flatten, together, List.map_map, List.map_map, List.map_map]
    refine congrArg _ (List.map_congr_left fun g hg => ?_)
    exact share_sequential (h g hg)
  rw [compose_eq, compose_eq, hshares]
  rfl

/-- One span for each position. -/
def Span.singles (n : Nat) : List Span := (List.range n).map fun i => ⟨i, i + 1⟩

theorem Span.slice_singles {α : Type} (xs : List α) :
    (singles xs.length).map (fun s => s.slice xs) = xs.map fun x => [x] := by
  refine List.ext_getElem (by simp [singles]) fun i hi hi' => ?_
  have hx : i < xs.length := by simpa using hi'
  simp [singles, slice, size, List.take_one, hx]

/-- **One part a stage** is parts that overlap. -/
theorem composeStages_singles (h : 2 ≤ parts.length) :
    composeStages parts (Span.singles parts.length) = compose .dataflow parts := by
  have hlength : (Span.singles parts.length).length = parts.length := by simp [Span.singles]
  have hstages : (Span.singles parts.length).map (fun s => compose .sequential (s.slice parts)) =
      parts.map fun p => compose .sequential [p] := by
    have hslices := congrArg (List.map (compose .sequential)) (Span.slice_singles parts)
    rwa [List.map_map, List.map_map] at hslices
  rw [composeStages, if_neg (by omega), hstages, compose_eq, compose_eq, List.map_map,
    List.length_map]
  rfl

/-- **Parts in any order, and in any groups.** However the parts are arranged, each composition of
    them is the same. Parts that take turns can be composed group by group, as long as no group is
    empty. From two parts on, one part a stage is parts that overlap. -/
theorem compose_rearranged (parts : List Metrics) :
    (∀ kind parts', parts'.Perm parts → compose kind parts' = compose kind parts) ∧
      (∀ groups : List (List Metrics), groups.flatten = parts → (∀ g ∈ groups, g ≠ []) →
        compose .sequential (groups.map (compose .sequential)) = compose .sequential parts) ∧
      (2 ≤ parts.length →
        composeStages parts (Span.singles parts.length) = compose .dataflow parts) := by
  refine ⟨fun kind parts' h => compose_perm h, fun groups h hne => ?_, composeStages_singles⟩
  rw [compose_groups groups hne, h]

namespace Mixed

/-- A part that takes nine cycles. -/
def short : Metrics := ⟨.known 9, .known 2, { computeUnits := 3, storageElements := 1 }⟩

/-- A part whose cycles are not known. -/
def endless : Metrics := ⟨.unknown, .unknown, { computeUnits := 1, memoryPorts := 2 }⟩

/-- A part that takes as many cycles as can be counted, and holds as much memory. -/
def longest : Metrics :=
  ⟨.known Count.limit, .known 1, { computeUnits := 2, storageElements := Count.limit }⟩

/-- Three parts in another order, as a pair and a single part, and each in a stage of its own. -/
theorem compose_rearranged_mixed :
    [longest, short, endless].Perm [short, endless, longest] ∧
      compose .sequential [longest, short, endless] =
        compose .sequential [short, endless, longest] ∧
      compose .dataflow [longest, short, endless] = compose .dataflow [short, endless, longest] ∧
      compose .sequential [compose .sequential [short, endless], compose .sequential [longest]] =
        compose .sequential [short, endless, longest] ∧
      composeStages [short, endless, longest] [⟨0, 1⟩, ⟨1, 2⟩, ⟨2, 3⟩] =
        compose .dataflow [short, endless, longest] := by
  have hperm : [longest, short, endless].Perm [short, endless, longest] := by decide
  obtain ⟨horder, hgroups, hstages⟩ := compose_rearranged [short, endless, longest]
  exact ⟨hperm, horder .sequential _ hperm, horder .dataflow _ hperm,
    hgroups [[short, endless], [longest]] rfl (by decide), hstages (by decide)⟩

end Mixed

end DesignSpace
