/-
  Subject:   WALKS come to an end on any table of records, also on one whose parents run in circles,
             and list no region twice. From the root on, a walk lists what the tree has.

  * `Walk.exists_iterate`: **a walk ends** after no more steps than it has numbers to visit;
  * `Record.exists_steps_subtree`, `nodup_subtree`: so it does from one number, and no region is
    listed twice;
  * `Forest.Recorded`, `Walk.finish_forest`: a walk through a forest, region by region;
  * `Record.recorded_forest`: the forest of a listing holds what the walk looks for;
  * `Listing.subtree_root`: **from the root on** the walk lists the tree in its order.
-/
import Mathlib.Logic.Function.Iterate
import DesignSpace.Proofs.Design.Distinct

namespace DesignSpace

/-! ## 1. To the end -/

namespace Walk

variable {all : List Record} {w : Walk} {id : RegionId} {P : Walk → Prop}

theorem finish_of_pending (h : w.pending = []) : w.finish all = w := by
  rw [finish, if_pos h]

theorem finish_of_step (h : w.pending ≠ []) : w.finish all = (w.step all).finish all := by
  rw [finish, if_neg h]

theorem pending_finish (w : Walk) : (w.finish all).pending = [] := by
  induction w using finish.induct all with
  | case1 w h => rw [finish_of_pending h, h]
  | case2 w h ih => rw [finish_of_step h, ih]

/-- **A walk ends** after no more steps than are left. -/
theorem exists_iterate (all : List Record) (w : Walk) :
    ∃ n ≤ w.left all, (step all)^[n] w = w.finish all := by
  induction w using finish.induct all with
  | case1 w h => exact ⟨0, Nat.zero_le _, (finish_of_pending h).symm⟩
  | case2 w h ih =>
    obtain ⟨n, hn, heq⟩ := ih
    have hleft := left_step all h
    exact ⟨n + 1, by omega, by rw [Function.iterate_succ_apply, heq, finish_of_step h]⟩

/-- What each step keeps holds at the end. -/
theorem finish_induction (step : ∀ w, P w → P (w.step all)) (hw : P w) : P (w.finish all) := by
  obtain ⟨n, -, heq⟩ := exists_iterate all w
  rw [← heq]
  clear heq
  induction n generalizing w with
  | zero => exact hw
  | succ n ih => exact ih (step w hw)

/-- The regions listed are different, and have been met. -/
structure Once (w : Walk) : Prop where
  nodup : w.listed.Nodup
  met : w.listed ⊆ w.met

theorem once_step (h : w.Once) : (w.step all).Once := by
  obtain ⟨hnodup, hmet⟩ := h
  unfold step
  cases w.pending with
  | nil => exact ⟨hnodup, hmet⟩
  | cons id rest =>
    dsimp only
    by_cases hm : w.met.contains id
    · rw [if_pos hm]
      exact ⟨hnodup, hmet⟩
    · have hnew : id ∉ w.listed := fun h => hm (List.contains_iff_mem.mpr (hmet h))
      have hmet' : w.listed ⊆ id :: w.met := fun i hi => List.mem_cons_of_mem _ (hmet hi)
      rw [if_neg hm]
      split
      · refine ⟨?_, List.append_subset.mpr ⟨hmet', List.cons_subset.mpr ⟨List.mem_cons_self, ?_⟩⟩⟩
        · exact List.nodup_append.mpr ⟨hnodup, List.nodup_singleton id, fun i hi j hj hij =>
            hnew (List.mem_singleton.mp hj ▸ hij ▸ hi)⟩
        · exact List.nil_subset _
      · exact ⟨hnodup, hmet'⟩

end Walk

namespace Record

/-- **From any region**, on any table: the walk ends after at most one step for each record and one
    more. -/
theorem exists_steps_subtree (all : List Record) (id : RegionId) : ∃ n ≤ all.length + 1,
    ((Walk.step all)^[n] { pending := [id] }).pending = [] ∧
      ((Walk.step all)^[n] { pending := [id] }).listed = subtree all id := by
  obtain ⟨n, hn, heq⟩ := Walk.exists_iterate all { pending := [id] }
  have hahead : (Walk.ahead all []).length ≤ all.length := List.length_filter_le _ _
  refine ⟨n, ?_, heq ▸ Walk.pending_finish _, heq ▸ rfl⟩
  exact Nat.le_trans hn (show 1 + (Walk.ahead all []).length ≤ all.length + 1 by omega)

/-- No region is listed twice. -/
theorem nodup_subtree (all : List Record) (id : RegionId) : (subtree all id).Nodup := by
  have hstart : Walk.Once { pending := [id] } := ⟨List.nodup_nil, List.nil_subset _⟩
  have hend : (Walk.finish all { pending := [id] }).Once :=
    Walk.finish_induction (fun _ => Walk.once_step) hstart
  exact hend.nodup

end Record

/-! ## 2. Through a forest -/

/-- The numbers of the regions at the top. -/
def Forest.topIds (f : Forest) : List RegionId := f.roots.map fun n => n.region.id

/-- A forest as a table of records has it: its regions are recorded, and the parts of each are the
    records under it. -/
structure Forest.Recorded (all : List Record) (f : Forest) : Prop where
  known : ∀ i ∈ f.ids, i ∈ all.map Record.id
  parts : ∀ n ∈ f.nests, Record.partsOf all n.region.id = n.below.topIds

namespace Forest.Recorded

variable {all : List Record} {r : Region} {below after f : Forest} {n : Nest}

theorem ofBelow (h : (cons r below after).Recorded all) : below.Recorded all where
  known i hi := h.known i (by rw [ids_cons]; simp [hi])
  parts n hn := h.parts n (List.mem_cons_of_mem _ (List.mem_append_left _ hn))

theorem ofAfter (h : (cons r below after).Recorded all) : after.Recorded all where
  known i hi := h.known i (by rw [ids_cons]; simp [hi])
  parts n hn := h.parts n (List.mem_cons_of_mem _ (List.mem_append_right _ hn))

theorem cons (hid : r.id ∈ all.map Record.id) (hparts : Record.partsOf all r.id = below.topIds)
    (hb : below.Recorded all) (ha : after.Recorded all) :
    (Forest.cons r below after).Recorded all where
  known i hi := by
    rw [ids_cons, List.mem_cons, List.mem_append] at hi
    rcases hi with rfl | hi | hi
    · exact hid
    · exact hb.known i hi
    · exact ha.known i hi
  parts n hn := by
    rw [nests, List.mem_cons, List.mem_append] at hn
    rcases hn with rfl | hn | hn
    · exact hparts
    · exact hb.parts n hn
    · exact ha.parts n hn

theorem ofNest (h : f.Recorded all) (hn : n ∈ f.nests) : n.toForest.Recorded all :=
  cons (h.known _ (mem_ids_of_mem_nests hn)) (h.parts n hn)
    ⟨fun i hi => h.known i (mem_ids_of_mem_below hn hi),
      fun m hm => h.parts m (nests_below_subset hn m hm)⟩
    ⟨nofun, nofun⟩

end Forest.Recorded

namespace Walk

variable {all : List Record} {f : Forest} {met : List RegionId}

/-- **A walk through a forest** lists its regions in their order, and comes back to what was to be
    visited after it. -/
theorem finish_forest (hrec : f.Recorded all) (hf : f.ids.Nodup) (rest listed : List RegionId)
    (hmet : ∀ i ∈ f.ids, i ∉ met) :
    finish all ⟨f.topIds ++ rest, met, listed⟩ =
      finish all ⟨rest, f.ids.reverse ++ met, listed ++ f.ids⟩ := by
  induction f generalizing rest met listed with
  | nil => rw [Forest.ids_nil, List.append_nil]; rfl
  | cons r below after ihb iha =>
      have ap := Forest.apart_of_nodup hf
      have hids := Forest.ids_cons r below after
      have hstep : step all ⟨(Forest.cons r below after).topIds ++ rest, met, listed⟩ =
          ⟨below.topIds ++ (after.topIds ++ rest), r.id :: met, listed ++ [r.id]⟩ := by
        have hnew : ¬ met.contains r.id := fun h =>
          hmet r.id (hids ▸ List.mem_cons_self) (List.contains_iff_mem.mp h)
        have hknown : (all.map Record.id).contains r.id :=
          List.contains_iff_mem.mpr (hrec.known r.id (hids ▸ List.mem_cons_self))
        show step all ⟨r.id :: (after.topIds ++ rest), met, listed⟩ = _
        simp only [step]
        rw [if_neg hnew, if_pos hknown, hrec.parts _ List.mem_cons_self]
      have hbelow : ∀ i ∈ below.ids, i ∉ r.id :: met := fun i hi hmem => by
        rcases List.mem_cons.mp hmem with rfl | hmem
        · exact ap.notBelow hi
        · exact hmet i (by rw [hids]; simp [hi]) hmem
      have hafter : ∀ i ∈ after.ids, i ∉ below.ids.reverse ++ r.id :: met := fun i hi hmem => by
        rw [List.mem_append, List.mem_reverse, List.mem_cons] at hmem
        rcases hmem with hmem | rfl | hmem
        · exact ap.disjoint i hmem hi
        · exact ap.notAfter hi
        · exact hmet i (by rw [hids]; simp [hi]) hmem
      rw [finish_of_step (by simp [Forest.topIds, Forest.roots]), hstep,
        ihb hrec.ofBelow ap.nodupBelow _ _ hbelow, iha hrec.ofAfter ap.nodupAfter _ _ hafter, hids]
      simp

/-- **From the region of a nest** a walk lists the nest. -/
theorem subtree_nest {n : Nest} (hrec : n.toForest.Recorded all) (hn : n.ids.Nodup) :
    Record.subtree all n.region.id = n.ids := by
  have h := finish_forest hrec hn [] [] fun _ _ => List.not_mem_nil
  exact (congrArg listed h).trans (congrArg listed (finish_of_pending rfl))

end Walk

/-! ## 3. From the root of a listing -/

namespace Record

variable {all rs : List Record} {root : Record} {p : RegionId} {l : List RegionId}

/-- **The forest of some parts of `p`** is as the table has it, if there are levels left for the
    longest line through `p`. -/
theorem recorded_forest (hall : (all.map id).Nodup) (hroot : root ∈ all)
    (hnone : root.parent = none) {levels : Nat} (hline : Line all root (p :: l))
    (hlevels : all.length ≤ levels + l.length + 1) (hrs : ∀ r ∈ rs, r ∈ all ∧ r.parent = some p) :
    (forest all levels rs).Recorded all := by
  induction levels generalizing p l rs with
  | zero => exact ⟨nofun, nofun⟩
  | succ levels ihl =>
      induction rs with
      | nil => exact ⟨nofun, nofun⟩
      | cons r rs ih =>
          obtain ⟨hr, hp⟩ := hrs r List.mem_cons_self
          have hline' : Line all root (r.id :: p :: l) := .step hr hp hline
          have hparts : partsOf all r.id = (forest all levels (childrenOf all r.id)).topIds := by
            cases levels with
            | zero =>
                -- a part of `r` would make a line that is longer than the table
                have hnil : childrenOf all r.id = [] :=
                  List.eq_nil_iff_forall_not_mem.mpr fun c hc => by
                    obtain ⟨hc, hcr⟩ := mem_childrenOf.mp hc
                    have hle := line_length_le hall hroot hnone (.step hc hcr hline')
                    simp only [List.length_cons] at hle
                    omega
                rw [partsOf, hnil]
                rfl
            | succ levels =>
                rw [Forest.topIds, forest_roots, List.map_map]
                rfl
          rw [forest_cons]
          refine .cons (List.mem_map_of_mem hr) hparts ?_ ?_
          · exact ihl hline' (by rw [List.length_cons]; omega) fun c hc => mem_childrenOf.mp hc
          · exact ih fun q hq => hrs q (List.mem_cons_of_mem _ hq)

end Record

namespace Listing

variable {l : Listing} {root : Record}

/-- **From the root on** the walk lists the tree in its order, also where other records of the
    listing do not hang on the root. -/
theorem subtree_root (hall : (l.records.map Record.id).Nodup) (hroot : root ∈ l.records)
    (hnone : root.parent = none) :
    Record.subtree l.records root.id = (l.treeAt root).preorder := by
  refine Walk.subtree_nest (n := (l.treeAt root).top) ?_ (nodup_treeAt hall hroot hnone)
  have hparts : Record.partsOf l.records root.id = (l.treeAt root).below.topIds := by
    have hlength : l.records.length ≠ 0 := List.ne_nil_of_mem hroot ∘ List.length_eq_zero_iff.mp
    obtain ⟨m, hm⟩ := Nat.exists_eq_succ_of_ne_zero hlength
    rw [treeAt, hm, Forest.topIds, Record.forest_roots, List.map_map]
    rfl
  refine .cons (List.mem_map_of_mem hroot) hparts ?_ ⟨nofun, nofun⟩
  exact Record.recorded_forest hall hroot hnone .root (Nat.le_succ _) fun r hr =>
    Record.mem_childrenOf.mp hr

end Listing

end DesignSpace
