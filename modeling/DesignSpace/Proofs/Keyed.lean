/-
  Subject:   KEYED LISTS AS MAPS. Lists whose keys ascend are determined by their look-ups.

  * `Keyed.Ascending`: the keys ascend, so each stands once;
  * `Keyed.ascending_insert`, `ascending_erase`, `ascending_ofList`: the operations keep that;
  * `Keyed.eq_of_get?_eq`: two ascending lists with the same look-ups are one list;
  * `Keyed.lasting`, `Keyed.perm_ofList`: a map put together from pairs holds those that no later
    one replaces;
  * `Table.Ascending`, `Table.eq_of_get?_eq`: the same for tables of estimates.
-/
import Mathlib.Data.List.Induction
import Mathlib.Data.Nat.Basic
import Mathlib.Order.Lattice
import DesignSpace.Metrics.Table

namespace DesignSpace

namespace Keyed

variable {κ α : Type} [LinearOrder κ]

/-! ## 1. Ascending keys -/

/-- The keys of a keyed list ascend. -/
def Ascending (m : List (κ × α)) : Prop := m.Pairwise fun a b => a.1 < b.1

theorem ascending_nil : Ascending ([] : List (κ × α)) := .nil

theorem ascending_erase {m : List (κ × α)} (h : Ascending m) (k : κ) : Ascending (erase m k) :=
  h.filter _

/-- The keys after an insertion are the keys before it and the new one. -/
theorem mem_keys_insert {m : List (κ × α)} {k : κ} {v : α} {j : κ} :
    j ∈ (insert m k v).map Prod.fst ↔ j = k ∨ j ∈ m.map Prod.fst := by
  induction m with
  | nil => simp [insert]
  | cons x rest ih =>
      unfold insert
      split
      · rename_i hk
        rw [List.map_cons, List.map_cons, List.mem_cons, List.mem_cons, ← hk]
        exact ⟨Or.inr, fun h => h.elim .inl id⟩
      · split
        · rw [List.map_cons, List.mem_cons]
        · rw [List.map_cons, List.mem_cons, ih, List.map_cons, List.mem_cons]
          exact or_left_comm

theorem ascending_insert {m : List (κ × α)} (h : Ascending m) (k : κ) (v : α) :
    Ascending (insert m k v) := by
  induction m with
  | nil => exact List.pairwise_singleton _ _
  | cons x rest ih =>
      obtain ⟨hx, hrest⟩ := List.pairwise_cons.mp h
      unfold insert
      split
      · rename_i hk
        subst hk
        exact List.pairwise_cons.mpr ⟨hx, hrest⟩
      · rename_i hne
        split
        · rename_i hlt
          refine List.pairwise_cons.mpr ⟨fun e he => ?_, h⟩
          rcases List.mem_cons.mp he with rfl | he
          · exact hlt
          · exact lt_trans hlt (hx e he)
        · rename_i hnlt
          refine List.pairwise_cons.mpr ⟨fun e he => ?_, ih hrest⟩
          rcases mem_keys_insert.mp (List.mem_map_of_mem he) with hk | hmem
          · rw [hk]
            exact lt_of_le_of_ne (le_of_not_gt hnlt) (Ne.symm hne)
          · obtain ⟨y, hy, hye⟩ := List.mem_map.mp hmem
            exact hye ▸ hx y hy

/-- A list of pairs put together as a map has ascending keys. -/
theorem ascending_ofList (entries : List (κ × α)) : Ascending (ofList entries) := by
  have h : ∀ (es : List (κ × α)) (m : List (κ × α)), Ascending m →
      Ascending (es.foldl (fun m e => insert m e.1 e.2) m) := by
    intro es
    induction es with
    | nil => exact fun _ hm => hm
    | cons e es ih => exact fun m hm => ih _ (ascending_insert hm e.1 e.2)
  exact h entries [] ascending_nil

/-- The keys of a map are those of the pairs it is put together from. -/
theorem mem_keys_ofList {entries : List (κ × α)} {j : κ} :
    j ∈ (ofList entries).map Prod.fst ↔ j ∈ entries.map Prod.fst := by
  have h : ∀ (es : List (κ × α)) (m : List (κ × α)),
      j ∈ (es.foldl (fun m e => insert m e.1 e.2) m).map Prod.fst ↔
        j ∈ es.map Prod.fst ∨ j ∈ m.map Prod.fst := by
    intro es
    induction es with
    | nil => exact fun m => ⟨.inr, fun h => h.resolve_left List.not_mem_nil⟩
    | cons e es ih =>
        intro m
        rw [List.foldl_cons, ih, mem_keys_insert, List.map_cons, List.mem_cons, or_left_comm,
          or_assoc]
  rw [ofList, h, List.map_nil]
  exact or_iff_left List.not_mem_nil

/-! ## 2. Look-ups -/

theorem get?_eq_none_of_lt {m : List (κ × α)} {k : κ} (h : ∀ e ∈ m, k < e.1) :
    get? m k = none := by
  induction m with
  | nil => rfl
  | cons e rest ih =>
      rw [get?_cons, if_neg (ne_of_gt (h e List.mem_cons_self))]
      exact ih fun x hx => h x (List.mem_cons_of_mem _ hx)

/-- The first key of a list does not lie below that of a list with the same value at it. -/
theorem not_lt_of_get?_eq {x y : κ × α} {xs ys : List (κ × α)} (hy : ∀ e ∈ ys, y.1 < e.1)
    (h : get? (x :: xs) x.1 = get? (y :: ys) x.1) : ¬ x.1 < y.1 := by
  intro hlt
  have hnone : get? ys x.1 = none := get?_eq_none_of_lt fun e he => lt_trans hlt (hy e he)
  rw [get?_cons, if_pos rfl, get?_cons, if_neg (ne_of_gt hlt), hnone] at h
  cases h

theorem head_eq_of_get?_eq {x y : κ × α} {xs ys : List (κ × α)} (hx : ∀ e ∈ xs, x.1 < e.1)
    (hy : ∀ e ∈ ys, y.1 < e.1) (h : ∀ k, get? (x :: xs) k = get? (y :: ys) k) : x = y := by
  have hxy := not_lt_of_get?_eq hy (h x.1)
  have hyx := not_lt_of_get?_eq hx (h y.1).symm
  have hk : x.1 = y.1 := le_antisymm (le_of_not_gt hyx) (le_of_not_gt hxy)
  have hv := h x.1
  rw [get?_cons, if_pos rfl, get?_cons, if_pos hk.symm] at hv
  exact Prod.ext hk (Option.some.inj hv)

/-- **Extensionality**: ascending lists with the same look-ups are equal. -/
theorem eq_of_get?_eq {m n : List (κ × α)} (hm : Ascending m) (hn : Ascending n)
    (h : ∀ k, get? m k = get? n k) : m = n := by
  have hnil : ∀ (x : κ × α) xs, get? (x :: xs) x.1 ≠ get? [] x.1 := by
    intro x xs heq
    rw [get?_cons, if_pos rfl] at heq
    cases heq
  induction m generalizing n with
  | nil =>
      cases n with
      | nil => rfl
      | cons y ys => exact absurd (h y.1).symm (hnil y ys)
  | cons x xs ih =>
      cases n with
      | nil => exact absurd (h x.1) (hnil x xs)
      | cons y ys =>
          obtain ⟨hx, hxs⟩ := List.pairwise_cons.mp hm
          obtain ⟨hy, hys⟩ := List.pairwise_cons.mp hn
          have hhead : x = y := head_eq_of_get?_eq hx hy h
          subst hhead
          have hrest : ∀ k, get? xs k = get? ys k := by
            intro k
            by_cases hkx : x.1 = k
            · subst hkx
              rw [get?_eq_none_of_lt hx, get?_eq_none_of_lt hy]
            · have hk := h k
              rwa [get?_cons, if_neg hkx, get?_cons, if_neg hkx] at hk
          rw [ih hxs hys hrest]

/-! ## 3. What lasts of a list of pairs -/

/-- The pairs of a list that no later pair with the same key replaces. -/
def lasting : List (κ × α) → List (κ × α)
  | [] => []
  | e :: rest => if e.1 ∈ rest.map Prod.fst then lasting rest else e :: lasting rest

theorem lasting_concat (entries : List (κ × α)) (e : κ × α) :
    lasting (entries ++ [e]) = erase (lasting entries) e.1 ++ [e] := by
  induction entries with
  | nil => simp [lasting, erase]
  | cons x rest ih =>
      have hmem : x.1 ∈ (rest ++ [e]).map Prod.fst ↔ x.1 ∈ rest.map Prod.fst ∨ x.1 = e.1 := by
        rw [List.map_append, List.mem_append, List.map_singleton, List.mem_singleton]
      rw [List.cons_append, lasting, lasting, ih]
      by_cases hlater : x.1 ∈ rest.map Prod.fst
      · rw [if_pos (hmem.mpr (.inl hlater)), if_pos hlater]
      · rw [if_neg hlater]
        by_cases hkey : x.1 = e.1
        · rw [if_pos (hmem.mpr (.inr hkey)), erase, erase,
            List.filter_cons_of_neg (by simpa using hkey)]
        · rw [if_neg (fun h => (hmem.mp h).elim hlater hkey), erase, erase,
            List.filter_cons_of_pos (by simpa using hkey), List.cons_append]

/-- Pairs whose keys differ all last. -/
theorem lasting_eq_self {entries : List (κ × α)} (h : (entries.map Prod.fst).Nodup) :
    lasting entries = entries := by
  induction entries with
  | nil => rfl
  | cons e rest ih =>
      obtain ⟨he, hrest⟩ := List.nodup_cons.mp h
      rw [lasting, if_neg he, ih hrest]

/-- An insertion puts a pair in the place of that with its key. -/
theorem perm_insert {m : List (κ × α)} (h : Ascending m) (k : κ) (v : α) :
    (insert m k v).Perm ((k, v) :: erase m k) := by
  induction m with
  | nil => exact .refl _
  | cons x rest ih =>
      obtain ⟨hx, hrest⟩ := List.pairwise_cons.mp h
      have herase : ∀ j ≤ x.1, erase rest j = rest := fun j hj =>
        List.filter_eq_self.mpr fun e he => decide_eq_true (ne_of_gt (lt_of_le_of_lt hj (hx e he)))
      unfold insert
      split
      · rename_i hk
        have hcons : erase (x :: rest) k = erase rest k :=
          List.filter_cons_of_neg (by simpa using hk.symm)
        rw [hcons, herase k hk.le]
      · rename_i hne
        have hcons : erase (x :: rest) k = x :: erase rest k :=
          List.filter_cons_of_pos (decide_eq_true (Ne.symm hne))
        split
        · rename_i hlt
          rw [hcons, herase k hlt.le]
        · rw [hcons]
          exact ((ih hrest).cons x).trans (.swap _ _ _)

/-- **A map holds what lasts** of the pairs that it is put together from. -/
theorem perm_ofList (entries : List (κ × α)) : (ofList entries).Perm (lasting entries) := by
  induction entries using List.reverseRecOn with
  | nil => exact .refl _
  | append_singleton entries e ih =>
      have hconcat : ofList (entries ++ [e]) = insert (ofList entries) e.1 e.2 := by
        rw [ofList, List.foldl_append]
        rfl
      rw [hconcat, lasting_concat]
      have hinsert := perm_insert (ascending_ofList entries) e.1 e.2
      exact (hinsert.trans ((ih.filter _).cons e)).trans (List.perm_append_singleton e _).symm

end Keyed

/-! ## 4. Tables -/

namespace Table

/-- The regions of a table ascend. -/
def Ascending (t : Table) : Prop := Keyed.Ascending t.entries

theorem ascending_empty : empty.Ascending := Keyed.ascending_nil

theorem ascending_insert {t : Table} (h : t.Ascending) (id : RegionId) (e : Estimate) :
    (t.insert id e).Ascending :=
  Keyed.ascending_insert h id e

theorem ascending_erase {t : Table} (h : t.Ascending) (id : RegionId) : (t.erase id).Ascending :=
  Keyed.ascending_erase h id

theorem ascending_invalidate {t : Table} (h : t.Ascending) (ids : List RegionId) :
    (t.invalidate ids).Ascending := by
  unfold invalidate
  induction ids generalizing t with
  | nil => exact h
  | cons id ids ih => exact ih (ascending_erase h id)

theorem ascending_put {t : Table} (h : t.Ascending) (e : RegionId × Option Estimate) :
    (t.put e).Ascending := by
  unfold put
  split
  · exact ascending_insert h _ _
  · exact ascending_erase h _

theorem ascending_restore {t : Table} (h : t.Ascending) (s : Snapshot) :
    (t.restore s).Ascending := by
  unfold restore
  induction s generalizing t with
  | nil => exact h
  | cons e s ih => exact ih (ascending_put h e)

/-- **Extensionality**: tables that say the same of every region are equal. -/
theorem eq_of_get?_eq {t u : Table} (ht : t.Ascending) (hu : u.Ascending)
    (h : ∀ id, t.get? id = u.get? id) : t = u := by
  cases t
  cases u
  exact congrArg Table.mk (Keyed.eq_of_get?_eq ht hu h)

end Table

end DesignSpace
