/-
  Subject:   THE ORDER OF THE OPERATORS. The operators that are named come first, in the order of
             the names, and then all others. Each operator comes as often as it is named, and once
             if it is not: so there is none twice exactly if no name is.

  * `Registry.ofList`, `nodup_ofList`: operators registered one after the other have different
    names;
  * `Registry.get?_of_mem`, `mem_ordered`: each is found under its name, and has its turn;
  * `Registry.names_ordered`, `count_ordered`: the names in order, and how often each comes;
  * `Registry.turns_ordered`: **each operator comes once exactly if no name is repeated.**
-/
import Mathlib.Data.List.Nodup
import DesignSpace.Proofs.Operator.Targets

namespace DesignSpace

namespace Registry

variable {r : Registry} {o : Operator} {priority : List String} {s : String}

/-! ## 1. Registries -/

/-- The registry of operators that are registered one after the other. -/
def ofList (os : List Operator) : Registry := os.foldl register {}

theorem map_name_replace (o : Operator) (xs : List Operator) :
    (register.replace o xs).map Operator.name = xs.map Operator.name := by
  induction xs with
  | nil => rfl
  | cons x xs ih =>
      unfold register.replace
      by_cases hx : x.name = o.name
      · rw [if_pos hx, List.map_cons, List.map_cons, hx]
      · rw [if_neg hx, List.map_cons, List.map_cons, ih]

/-- A name that is not there yet is added at the end. -/
theorem names_register (r : Registry) (o : Operator) :
    (r.register o).names = if o.name ∈ r.names then r.names else r.names ++ [o.name] := by
  unfold register
  by_cases h : o.name ∈ r.names
  · rw [if_pos h, if_pos (List.contains_iff_mem.mpr h)]
    exact map_name_replace o r.operators
  · rw [if_neg h, if_neg fun hc => h (List.contains_iff_mem.mp hc)]
    exact List.map_append

theorem nodup_register (h : r.names.Nodup) (o : Operator) : (r.register o).names.Nodup := by
  rw [names_register]
  split
  case isTrue => exact h
  case isFalse hnew =>
    refine List.nodup_append.mpr ⟨h, List.nodup_singleton _, fun s hs t ht => ?_⟩
    rw [List.mem_singleton.mp ht]
    exact ne_of_mem_of_not_mem hs hnew

/-- **Registered operators have different names.** -/
theorem nodup_ofList (os : List Operator) : (ofList os).names.Nodup := by
  -- the registry at hand changes with every operator
  have hfold : ∀ r : Registry, r.names.Nodup → (os.foldl register r).names.Nodup := by
    induction os with
    | nil => exact fun _ h => h
    | cons o os ih => exact fun _ h => ih _ (nodup_register h o)
  exact hfold {} List.nodup_nil

/-- Where names are different, each operator is found under its own. -/
theorem get?_of_mem (h : r.names.Nodup) (ho : o ∈ r.operators) : r.get? o.name = some o := by
  obtain ⟨x, hx⟩ := Option.isSome_iff_exists.mp (List.find?_isSome (p := fun x : Operator =>
    decide (x.name = o.name)).mpr ⟨o, ho, decide_eq_true rfl⟩)
  have hname : x.name = o.name := by simpa using List.find?_some hx
  obtain rfl := List.inj_on_of_nodup_map h (List.mem_of_find?_eq_some hx) ho hname
  exact hx

theorem name_of_get? (h : r.get? s = some o) : o.name = s := by
  simpa using List.find?_some h

theorem get?_eq_none_iff : r.get? s = none ↔ s ∉ r.names := by
  simp [get?, names]

theorem map_name_get? (r : Registry) (s : String) :
    (r.get? s).map Operator.name = if s ∈ r.names then some s else none := by
  cases hs : r.get? s with
  | none => rw [if_neg (get?_eq_none_iff.mp hs), Option.map_none]
  | some o =>
      obtain rfl := name_of_get? hs
      have hmem : o.name ∈ r.names := List.mem_map_of_mem (List.mem_of_find?_eq_some hs)
      rw [if_pos hmem, Option.map_some]

/-! ## 2. The order -/

/-- Whatever is named, all operators have their turn. -/
theorem mem_ordered (h : r.names.Nodup) (ho : o ∈ r.operators) (priority : List String) :
    o ∈ r.ordered priority := by
  by_cases hnamed : o.name ∈ priority
  · exact List.mem_append_left _ (List.mem_filterMap.mpr ⟨o.name, hnamed, get?_of_mem h ho⟩)
  · exact List.mem_append_right _ (List.mem_filter.mpr ⟨ho, by simpa using hnamed⟩)

/-- **The names in order**: those that are given and known, as they are given, and then all
    others. -/
theorem names_ordered (r : Registry) (priority : List String) :
    (r.ordered priority).map Operator.name =
      priority.filter r.names.contains ++ r.names.filter fun s => !priority.contains s := by
  have hnamed : (priority.filterMap r.get?).map Operator.name =
      priority.filter r.names.contains := by
    rw [List.map_filterMap, ← List.filterMap_eq_filter]
    refine List.filterMap_congr fun s _ => ?_
    simp [map_name_get?, Option.guard]
  rw [ordered, List.map_append, hnamed, names, List.filter_map]
  rfl

/-- **Each operator comes as often as it is named**, and once if it is not. -/
theorem count_ordered (h : r.names.Nodup) (hs : s ∈ r.names) (priority : List String) :
    ((r.ordered priority).map Operator.name).count s = max 1 (priority.count s) := by
  -- a name that is given has its turns among the first, any other one among the rest
  have hothers : (r.names.filter fun s => !priority.contains s).count s =
      if s ∈ priority then 0 else 1 := by
    by_cases hp : s ∈ priority
    · rw [if_pos hp, List.count_eq_zero]
      simp [hp]
    · rw [if_neg hp]
      exact List.count_eq_one_of_mem (h.filter _) (by simp [hs, hp])
  rw [names_ordered, List.count_append, hothers, List.count_filter (by simpa using hs)]
  by_cases hp : s ∈ priority
  · have := List.count_pos_iff.mpr hp
    rw [if_pos hp]
    omega
  · rw [if_neg hp, List.count_eq_zero.mpr hp]
    rfl

/-- **Operators that take turns**, those first that are named: by name they stand in the order of
    the names, and then as they were registered; each is the one that is registered under its name;
    each has as many turns as it is named, and one if it is not; and so each has exactly one turn if
    and only if no name is repeated. -/
structure Turns (r : Registry) (priority : List String) (os : List Operator) : Prop where
  names : os.map Operator.name = priority ++ r.names.filter fun s => !priority.contains s
  found : ∀ o ∈ os, r.get? o.name = some o
  count : ∀ o ∈ r.operators, (os.map Operator.name).count o.name = max 1 (priority.count o.name)
  once_iff : os.Perm r.operators ↔ priority.Nodup

/-- **The operators take turns**, if all that are named are registered. -/
theorem turns_ordered (h : r.names.Nodup) (hnamed : ∀ s ∈ priority, s ∈ r.names) :
    r.Turns priority (r.ordered priority) := by
  have hnames : (r.ordered priority).map Operator.name =
      priority ++ r.names.filter fun s => !priority.contains s := by
    rw [names_ordered, List.filter_eq_self.mpr fun s hs => by simpa using hnamed s hs]
  refine ⟨hnames, fun o ho => get?_of_mem h (mem_of_mem_ordered ho),
    fun o ho => count_ordered h (List.mem_map_of_mem ho) priority, fun hperm => ?_,
    fun hpriority => ?_⟩
  · have hnodup : ((r.ordered priority).map Operator.name).Nodup :=
      (hperm.map Operator.name).nodup_iff.mpr h
    rw [hnames] at hnodup
    exact (List.nodup_append.mp hnodup).1
  · have hnodup : ((r.ordered priority).map Operator.name).Nodup := by
      rw [hnames]
      refine List.nodup_append.mpr ⟨hpriority, h.filter _, ?_⟩
      rintro s hs t ht rfl
      simp [hs] at ht
    refine (List.perm_ext_iff_of_nodup (.of_map _ hnodup) (.of_map _ h)).mpr fun o => ?_
    exact ⟨mem_of_mem_ordered, fun ho => mem_ordered h ho priority⟩

end Registry

end DesignSpace
