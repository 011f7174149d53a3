/-
  Subject:   DESIGNS OF LISTINGS have a number for each region. What a listing puts below a region
             is reached from the root on one line only.

  * `Record.Line`: the numbers from a region up to the root;
  * `Record.line_unique`: a region stands at the end of one line;
  * `Record.nodup_ids_forest`: so no number stands twice in the forest of a listing;
  * `Listing.nodup_of_design`: **the design of a listing has different numbers**;
  * `Smoothing.listing`: one listing, and its tree.
-/
import Mathlib.Data.List.Nodup
import Mathlib.Data.List.Perm.Subperm
import DesignSpace.Design.Listing
import DesignSpace.Proofs.Attempt
import DesignSpace.Proofs.Forest.Path

namespace DesignSpace

namespace Record

/-! ## 1. Lines -/

/-- The numbers from a region up to the root, each the parent of the one before it. -/
inductive Line (all : List Record) (root : Record) : List RegionId → Prop where
  | root : Line all root [root.id]
  | step {r : Record} {p : RegionId} {l : List RegionId} (hr : r ∈ all) (hp : r.parent = some p)
      (h : Line all root (p :: l)) : Line all root (r.id :: p :: l)

variable {all rs : List Record} {r root : Record} {p x : RegionId} {l l' : List RegionId}

theorem eq_of_id_eq (hall : (all.map id).Nodup) {q : Record} (hr : r ∈ all) (hq : q ∈ all)
    (h : r.id = q.id) : r = q := List.inj_on_of_nodup_map hall hr hq h

/-- **A region stands at the end of one line.** -/
theorem line_unique (hall : (all.map id).Nodup) (hroot : root ∈ all) (hnone : root.parent = none)
    (h : Line all root (x :: l)) (h' : Line all root (x :: l')) : l = l' := by
  generalize hk : x :: l = k at h
  induction h generalizing x l l' with
  | root =>
      obtain ⟨rfl, rfl⟩ := List.cons.inj hk
      generalize hk' : root.id :: l' = k' at h'
      cases h' with
      | root => exact (List.cons.inj hk').2.symm
      | step hq hp _ =>
          rw [← eq_of_id_eq hall hroot hq (List.cons.inj hk').1, hnone] at hp
          cases hp
  | step hr hp h ih =>
      obtain ⟨rfl, rfl⟩ := List.cons.inj hk
      rename_i q p k
      generalize hk' : q.id :: l' = k' at h'
      cases h' with
      | root =>
          rw [eq_of_id_eq hall hr hroot (List.cons.inj hk').1, hnone] at hp
          cases hp
      | step hq' hp' h' =>
          obtain ⟨hid, rfl⟩ := List.cons.inj hk'
          rw [← eq_of_id_eq hall hr hq' hid, hp] at hp'
          obtain rfl := Option.some.inj hp'
          rw [ih h' rfl]

/-- What stands on a line has a line of its own, which is the rest of it. -/
theorem line_of_mem (h : Line all root l) (hx : x ∈ l) :
    ∃ front rest, l = front ++ x :: rest ∧ Line all root (x :: rest) := by
  induction h with
  | root =>
      obtain rfl := List.mem_singleton.mp hx
      exact ⟨[], [], rfl, .root⟩
  | @step r p k hr hp hline ih =>
      rcases List.mem_cons.mp hx with rfl | hx
      · exact ⟨[], p :: k, rfl, .step hr hp hline⟩
      · obtain ⟨front, rest, heq, hrest⟩ := ih hx
        exact ⟨r.id :: front, rest, by rw [heq]; rfl, hrest⟩

theorem line_subset (hroot : root ∈ all) (h : Line all root l) : l ⊆ all.map id := by
  induction h with
  | root =>
      intro x hx
      obtain rfl := List.mem_singleton.mp hx
      exact List.mem_map_of_mem hroot
  | step hr hp hline ih => exact List.cons_subset.mpr ⟨List.mem_map_of_mem hr, ih⟩

/-- No number stands twice on a line, for it would stand at the end of two lines. -/
theorem line_nodup (hall : (all.map id).Nodup) (hroot : root ∈ all) (hnone : root.parent = none)
    (h : Line all root l) : l.Nodup := by
  induction h with
  | root => exact List.nodup_singleton _
  | @step r p k hr hp hline ih =>
      refine List.nodup_cons.mpr ⟨fun hmem => ?_, ih⟩
      obtain ⟨front, rest, heq, hrest⟩ := line_of_mem hline hmem
      have huniq := line_unique hall hroot hnone hrest (.step hr hp hline)
      have hlength := congrArg List.length heq
      simp only [huniq, List.length_append, List.length_cons] at hlength
      omega

/-- A line is no longer than the list of records. -/
theorem line_length_le (hall : (all.map id).Nodup) (hroot : root ∈ all)
    (hnone : root.parent = none) (h : Line all root l) : l.length ≤ all.length := by
  have hsub := List.subperm_of_subset (line_nodup hall hroot hnone h) (line_subset hroot h)
  have hlength := hsub.length_le
  rwa [List.length_map] at hlength

/-! ## 2. Forests -/

theorem mem_childrenOf : r ∈ childrenOf all p ↔ r ∈ all ∧ r.parent = some p := by
  simp [childrenOf]

theorem nodup_childrenOf (hall : (all.map id).Nodup) (p : RegionId) :
    ((childrenOf all p).map id).Nodup :=
  hall.sublist (List.filter_sublist.map id)

theorem forest_cons (all : List Record) (n : Nat) (r : Record) (rs : List Record) :
    forest all (n + 1) (r :: rs) =
      .cons r.region (forest all n (childrenOf all r.id)) (forest all (n + 1) rs) := rfl

theorem forest_roots (all : List Record) (levels : Nat) (rs : List Record) :
    (forest all (levels + 1) rs).roots =
      rs.map fun r => ⟨r.region, forest all levels (childrenOf all r.id)⟩ := by
  induction rs with
  | nil => rfl
  | cons r rs ih => rw [forest_cons, Forest.roots, ih]; rfl

/-- A region of the forest of some parts of `p` stands on a line through one of the parts. -/
theorem line_of_mem_forest {n : Nat} (hline : Line all root (p :: l))
    (hrs : ∀ r ∈ rs, r ∈ all ∧ r.parent = some p) (hx : x ∈ (forest all n rs).ids) :
    ∃ r ∈ rs, ∃ front rest, Line all root (x :: rest) ∧ x :: rest = front ++ r.id :: p :: l := by
  induction n generalizing p l rs with
  | zero => exact absurd hx List.not_mem_nil
  | succ n ihn =>
      induction rs with
      | nil => exact absurd hx List.not_mem_nil
      | cons r rs ih =>
          obtain ⟨hr, hp⟩ := hrs r List.mem_cons_self
          have hline' : Line all root (r.id :: p :: l) := .step hr hp hline
          rw [forest_cons, Forest.ids_cons, List.mem_cons, List.mem_append] at hx
          rcases hx with rfl | hx | hx
          · exact ⟨r, List.mem_cons_self, [], p :: l, hline', rfl⟩
          · obtain ⟨c, -, front, rest, hrest, heq⟩ :=
              ihn hline' (fun c hc => mem_childrenOf.mp hc) hx
            exact ⟨r, List.mem_cons_self, front ++ [c.id], rest, hrest, by rw [heq]; simp⟩
          · obtain ⟨q, hq, hfront⟩ := ih (fun q hq => hrs q (List.mem_cons_of_mem _ hq)) hx
            exact ⟨q, List.mem_cons_of_mem _ hq, hfront⟩

section Distinct

variable (hall : (all.map id).Nodup) (hroot : root ∈ all) (hnone : root.parent = none)
include hall hroot hnone

/-- A region does not lie below itself. -/
theorem not_mem_forest_childrenOf {n : Nat} (hline : Line all root (x :: l)) :
    x ∉ (forest all n (childrenOf all x)).ids := by
  intro hx
  obtain ⟨c, -, front, rest, hrest, heq⟩ :=
    line_of_mem_forest hline (fun c hc => mem_childrenOf.mp hc) hx
  rw [line_unique hall hroot hnone hrest hline] at heq
  have hlength := congrArg List.length heq
  simp only [List.length_cons, List.length_append] at hlength
  omega

/-- **No number stands twice in the forest of a listing.** -/
theorem nodup_ids_forest (n : Nat) (hline : Line all root (p :: l))
    (hrs : ∀ r ∈ rs, r ∈ all ∧ r.parent = some p) (hnodup : (rs.map id).Nodup) :
    (forest all n rs).ids.Nodup := by
  induction n generalizing p l rs with
  | zero => exact List.nodup_nil
  | succ n ihn =>
      induction rs with
      | nil => exact List.nodup_nil
      | cons r rs ih =>
          obtain ⟨hr, hp⟩ := hrs r List.mem_cons_self
          have hrs' : ∀ q ∈ rs, q ∈ all ∧ q.parent = some p := fun q hq =>
            hrs q (List.mem_cons_of_mem _ hq)
          obtain ⟨hfirst, hrest⟩ := List.nodup_cons.mp hnodup
          have hline' : Line all root (r.id :: p :: l) := .step hr hp hline
          have hbelow := not_mem_forest_childrenOf hall hroot hnone hline' (n := n)
          -- what is below the first part and what is at another one stands on lines that part
          -- at `p`
          have hparts : ∀ y rest, Line all root (y :: rest) → ∀ front,
              y :: rest = front ++ r.id :: p :: l → y ∉ (forest all (n + 1) rs).ids := by
            intro y rest hy front heq hmem
            obtain ⟨q, hq, front', rest', hy', heq'⟩ := line_of_mem_forest hline hrs' hmem
            rw [line_unique hall hroot hnone hy' hy, heq] at heq'
            have hid := (List.append_inj' heq' rfl).2
            exact hfirst (List.mem_map.mpr ⟨q, hq, (List.cons.inj hid).1.symm⟩)
          rw [forest_cons, Forest.ids_cons, List.nodup_cons, List.mem_append, not_or,
            List.nodup_append]
          refine ⟨⟨hbelow, hparts r.id _ hline' [] rfl⟩, ?_, ih hrs' hrest, ?_⟩
          · exact ihn hline' (fun c hc => mem_childrenOf.mp hc) (nodup_childrenOf hall r.id)
          · rintro y hyb z hya rfl
            obtain ⟨c, -, front, rest, hy, heq⟩ :=
              line_of_mem_forest hline' (fun c hc => mem_childrenOf.mp hc) hyb
            exact hparts y rest hy (front ++ [c.id]) (by rw [heq]; simp) hya

end Distinct

/-! ## 3. The tree of a listing -/

theorem repeated?_eq_none_iff {before : List RegionId} :
    repeated? before rs = none ↔ (rs.map id).Nodup ∧ ∀ r ∈ rs, r.id ∉ before := by
  induction rs generalizing before with
  | nil => simp [repeated?]
  | cons r rs ih =>
      rw [repeated?, List.map_cons, List.nodup_cons, List.forall_mem_cons]
      by_cases h : before.contains r.id
      · rw [if_pos h]
        exact iff_of_false nofun fun hr => hr.2.1 (List.contains_iff_mem.mp h)
      · rw [if_neg h, ih]
        constructor
        · rintro ⟨hnodup, hbefore⟩
          refine ⟨⟨?_, hnodup⟩, fun hr => h (List.contains_iff_mem.mpr hr), fun q hq hm =>
            hbefore q hq (List.mem_cons_of_mem _ hm)⟩
          intro hmem
          obtain ⟨q, hq, hid⟩ := List.mem_map.mp hmem
          exact hbefore q hq (List.mem_cons.mpr (.inl hid))
        · rintro ⟨⟨hr, hnodup⟩, -, hbefore⟩
          refine ⟨hnodup, fun q hq hm => ?_⟩
          rcases List.mem_cons.mp hm with hid | hm
          · exact hr (hid ▸ List.mem_map_of_mem hq)
          · exact hbefore q hq hm

theorem repeated?_nil_eq_none_iff : repeated? [] rs = none ↔ (rs.map id).Nodup :=
  repeated?_eq_none_iff.trans (and_iff_left fun _ _ => List.not_mem_nil)

/-- The root of a listing is one of its records, and without a parent. -/
theorem root?_spec {known : List RegionId} {first : Option Record}
    (h : root? known first rs = .ok r) (hfirst : ∀ f, first = some f → f.parent = none) :
    r.parent = none ∧ (first = some r ∨ r ∈ rs) := by
  induction rs generalizing first with
  | nil =>
      cases first with
      | none => cases h
      | some f =>
          obtain rfl := Except.ok.inj h
          exact ⟨hfirst f rfl, .inl rfl⟩
  | cons q rs ih =>
      cases hq : q.parent with
      | none =>
          cases first with
          | none =>
              simp only [root?, hq] at h
              obtain ⟨hnone, hmem⟩ := ih h fun f hf => by cases hf; exact hq
              refine ⟨hnone, .inr ?_⟩
              rcases hmem with heq | hmem
              · exact List.mem_cons.mpr (.inl (Option.some.inj heq).symm)
              · exact List.mem_cons_of_mem _ hmem
          | some f =>
              simp only [root?, hq] at h
              cases h
      | some p =>
          have h : (if known.contains p then root? known first rs
              else .error (.unknownParent q.id p)) = .ok r := by
            cases first <;> simpa only [root?, hq] using h
          by_cases hk : known.contains p
          · rw [if_pos hk] at h
            obtain ⟨hnone, hmem⟩ := ih h hfirst
            exact ⟨hnone, hmem.imp_right (List.mem_cons_of_mem _)⟩
          · rw [if_neg hk] at h
            cases h

end Record

namespace Listing

variable {l : Listing} {d : Design}

/-- The tree of a listing from one of its records on. -/
def treeAt (l : Listing) (root : Record) : Design :=
  ⟨l.name, root.region,
    Record.forest l.records l.records.length (Record.childrenOf l.records root.id), l.arrays⟩

theorem nodup_treeAt {root : Record} (hall : (l.records.map Record.id).Nodup)
    (hroot : root ∈ l.records) (hnone : root.parent = none) : (l.treeAt root).preorder.Nodup := by
  rw [Design.preorder_eq]
  refine List.nodup_cons.mpr ⟨?_, ?_⟩
  · exact Record.not_mem_forest_childrenOf hall hroot hnone .root
  · exact Record.nodup_ids_forest hall hroot hnone _ .root
      (fun r hr => Record.mem_childrenOf.mp hr) (Record.nodup_childrenOf hall root.id)

theorem nodup_of_tree (h : l.tree = .ok d) : d.preorder.Nodup := by
  unfold tree at h
  cases hrepeated : Record.repeated? [] l.records with
  | some id =>
      rw [hrepeated] at h
      cases h
  | none =>
      rw [hrepeated] at h
      obtain ⟨root, hroot, h⟩ := Attempt.bind_eq_ok_iff.mp h
      have hall : (l.records.map Record.id).Nodup := Record.repeated?_nil_eq_none_iff.mp hrepeated
      obtain ⟨hnone, hmem⟩ := Record.root?_spec hroot nofun
      obtain rfl : l.treeAt root = d := by
        dsimp only at h
        split at h
        · cases h
        · exact Except.ok.inj h
      exact nodup_treeAt hall (hmem.resolve_left nofun) hnone

theorem tree_of_design (h : l.design = .ok d) : l.tree = .ok d ∧ d.check = .ok () := by
  obtain ⟨d', ht, hd⟩ := Attempt.bind_eq_ok_iff.mp h
  obtain ⟨⟨⟩, hc, hd⟩ := Attempt.bind_eq_ok_iff.mp hd
  obtain rfl := Except.ok.inj hd
  exact ⟨ht, hc⟩

/-- **The design of a listing has different numbers.** -/
theorem nodup_of_design (h : l.design = .ok d) : d.preorder.Nodup :=
  nodup_of_tree (tree_of_design h).1

end Listing

/-! ## 4. One design -/

namespace Smoothing

/-- The loop over an external array, in tiles of eight. -/
def double : Loop := { iv := "i", trip := .static 16, directives := ⟨false, 2, some 8⟩ }

/-- Each element doubled, and put on the chip. -/
def doubleBody : Block where
  ops := [⟨.fadd, 32⟩]
  accesses := [⟨"x", .read, [⟨"i", ["i"]⟩]⟩, ⟨"y", .write, [⟨"i", ["i"]⟩]⟩]

/-- The loop over the array on the chip. -/
def total : Loop := { iv := "j", trip := .static 16 }

/-- Each element added up. -/
def totalBody : Block where
  ops := [⟨.add, 32⟩]
  accesses := [⟨"y", .read, [⟨"j", ["j"]⟩]⟩]

/-- A function of the two loops. -/
def listing : Listing where
  name := "smoothing"
  records :=
    [⟨⟨0, .func { name := "smoothing" }, none⟩, none⟩, ⟨⟨1, .loop double, none⟩, some 0⟩,
     ⟨⟨2, .block doubleBody, none⟩, some 1⟩, ⟨⟨3, .loop total, none⟩, some 0⟩,
     ⟨⟨4, .block totalBody, none⟩, some 3⟩]
  arrays :=
    [{ name := "x", shape := [16], storage := .external }, { name := "y", shape := [16] }]

/-- The function as a tree. -/
def design : Design where
  name := "smoothing"
  root := ⟨0, .func { name := "smoothing" }, none⟩
  below :=
    .cons ⟨1, .loop double, none⟩ (.cons ⟨2, .block doubleBody, none⟩ .nil .nil)
      (.cons ⟨3, .loop total, none⟩ (.cons ⟨4, .block totalBody, none⟩ .nil .nil) .nil)
  arrays := listing.arrays

theorem design_listing : listing.design = .ok design := by decide +kernel

end Smoothing

end DesignSpace
