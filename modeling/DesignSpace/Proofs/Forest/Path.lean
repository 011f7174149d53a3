/-
  Subject:   PATHS IN A FOREST whose regions have different numbers. A region is found by its
             number, and the nests around it are those that it lies in.

  * `Forest.eq_of_id_eq`: a number belongs to one nest;
  * `Forest.mem_above_iff`: the nests on the path to a region are those that it lies below;
  * `Forest.pairwise_above`, `Forest.above_of_append`: each nest on a path lies below those before
    it, and they are its own path;
  * `Design.mem_subtree_iff`: a region is in the nest of another one if it is that one or has it
    above itself;
  * `Design.ancestors_trans`, `Design.ancestors_of_mem_subtree`: what is above an ancestor, and what
    is above a region of a nest.
-/
import Mathlib.Data.List.Nodup
import Mathlib.Data.List.Perm.Subperm
import Mathlib.Tactic.ByContra
import DesignSpace.Design.Basic

namespace DesignSpace

namespace Forest

variable {f : Forest} {n m : Nest} {id j : RegionId} {path : List Nest}

/-! ## 1. Regions by number -/

theorem ids_nil : ids nil = [] := rfl

theorem ids_cons (r : Region) (below after : Forest) :
    ids (cons r below after) = r.id :: (below.ids ++ after.ids) := by
  rw [ids, regions_cons, List.map_cons, List.map_append]
  rfl

theorem mem_ids_iff : id ∈ f.ids ↔ ∃ n ∈ f.nests, n.region.id = id := by
  simp [ids, regions]

theorem mem_ids_of_mem_nests (h : n ∈ f.nests) : n.region.id ∈ f.ids := mem_ids_iff.mpr ⟨n, h, rfl⟩

/-- What lies below a nest of the forest is in the forest. -/
theorem nests_below_subset (h : n ∈ f.nests) : ∀ m ∈ n.below.nests, m ∈ f.nests := by
  induction f with
  | nil => exact absurd h List.not_mem_nil
  | cons r below after ihb iha =>
      intro m hm
      rw [nests, List.mem_cons, List.mem_append] at h ⊢
      rcases h with rfl | h | h
      · exact .inr (.inl hm)
      · exact .inr (.inl (ihb h m hm))
      · exact .inr (.inr (iha h m hm))

theorem mem_ids_of_mem_below (h : n ∈ f.nests) (hj : j ∈ n.below.ids) : j ∈ f.ids := by
  obtain ⟨m, hm, rfl⟩ := mem_ids_iff.mp hj
  exact mem_ids_of_mem_nests (nests_below_subset h m hm)

/-- The parts of a forest whose numbers are different: those of the first region, of what lies
    below it and of what comes after it are apart. -/
structure Apart (r : Region) (below after : Forest) : Prop where
  notBelow : r.id ∉ below.ids
  notAfter : r.id ∉ after.ids
  nodupBelow : below.ids.Nodup
  nodupAfter : after.ids.Nodup
  disjoint : ∀ id ∈ below.ids, id ∉ after.ids

theorem apart_of_nodup {r : Region} {below after : Forest}
    (h : (cons r below after).ids.Nodup) : Apart r below after := by
  rw [ids_cons, List.nodup_cons, List.nodup_append] at h
  obtain ⟨hr, hb, ha, hd⟩ := h
  rw [List.mem_append, not_or] at hr
  exact ⟨hr.1, hr.2, hb, ha, fun id hb ha => hd id hb id ha rfl⟩

/-- A number belongs to one nest. -/
theorem eq_of_id_eq (hf : f.ids.Nodup) (hn : n ∈ f.nests) (hm : m ∈ f.nests)
    (h : n.region.id = m.region.id) : n = m := by
  rw [ids, regions, List.map_map] at hf
  exact List.inj_on_of_nodup_map hf hn hm h

theorem find?_cons (r : Region) (below after : Forest) (id : RegionId) :
    (cons r below after).find? id =
      if r.id = id then some ⟨r, below⟩ else (below.find? id).or (after.find? id) := by
  rw [find?, nests, List.find?_cons, List.find?_append]
  by_cases h : r.id = id <;> simp [h, find?]

theorem find?_mem (h : f.find? id = some n) : n ∈ f.nests ∧ n.region.id = id :=
  ⟨List.mem_of_find?_eq_some h, by simpa using List.find?_some h⟩

theorem find?_eq_none_iff : f.find? id = none ↔ id ∉ f.ids := by
  simp [find?, mem_ids_iff]

theorem exists_find?_of_mem_ids (h : id ∈ f.ids) : ∃ n, f.find? id = some n := by
  cases hn : f.find? id with
  | none => exact absurd h (find?_eq_none_iff.mp hn)
  | some n => exact ⟨n, rfl⟩

/-! ## 2. Paths -/

theorem above_cons (r : Region) (below after : Forest) (id : RegionId) :
    above id (cons r below after) =
      if r.id = id then some []
      else ((above id below).map (⟨r, below⟩ :: ·)).or (above id after) := by
  rw [above]
  split
  · rfl
  · cases above id below <;> rfl

theorem above_eq_none_iff : above id f = none ↔ id ∉ f.ids := by
  induction f with
  | nil => simp [above, ids_nil]
  | cons r below after ihb iha =>
      rw [above_cons, ids_cons]
      by_cases h : r.id = id
      · simp [h]
      · simp [h, Ne.symm h, ihb, iha]

theorem exists_above_of_mem_ids (h : id ∈ f.ids) : ∃ path, above id f = some path := by
  cases hp : above id f with
  | none => exact absurd h (above_eq_none_iff.mp hp)
  | some path => exact ⟨path, rfl⟩

theorem mem_ids_of_above (h : above id f = some path) : id ∈ f.ids := by
  by_contra hid
  rw [above_eq_none_iff.mpr hid] at h
  cases h

/-- The path to a region below a region goes through that one. -/
theorem above_of_below {r : Region} {below after : Forest} (ap : Apart r below after)
    (h : above id below = some path) :
    above id (cons r below after) = some (⟨r, below⟩ :: path) := by
  have hr : r.id ≠ id := fun hr => ap.notBelow (hr ▸ mem_ids_of_above h)
  rw [above_cons, if_neg hr, h]
  rfl

/-- The path to a region of a later nest does not touch the first one. -/
theorem above_of_after {r : Region} {below after : Forest} (ap : Apart r below after)
    (h : above id after = some path) : above id (cons r below after) = some path := by
  have hid := mem_ids_of_above h
  have hr : r.id ≠ id := fun hr => ap.notAfter (hr ▸ hid)
  rw [above_cons, if_neg hr, above_eq_none_iff.mpr fun hbelow => ap.disjoint id hbelow hid, h]
  rfl

theorem mem_of_mem_above (h : above j f = some path) (hn : n ∈ path) :
    n ∈ f.nests ∧ j ∈ n.below.ids := by
  induction f generalizing path with
  | nil => cases h
  | cons r below after ihb iha =>
      rw [above_cons] at h
      rw [nests, List.mem_cons, List.mem_append]
      by_cases hr : r.id = j
      · rw [if_pos hr] at h
        obtain rfl := Option.some.inj h
        exact absurd hn List.not_mem_nil
      · rw [if_neg hr] at h
        cases hb : above j below with
        | none =>
            rw [hb] at h
            have := iha h hn
            exact ⟨.inr (.inr this.1), this.2⟩
        | some p =>
            rw [hb] at h
            obtain rfl := Option.some.inj h
            rcases List.mem_cons.mp hn with rfl | hn
            · exact ⟨.inl rfl, mem_ids_of_above hb⟩
            · have := ihb hb hn
              exact ⟨.inr (.inl this.1), this.2⟩

theorem mem_above_of_mem (hf : f.ids.Nodup) (h : above j f = some path) (hn : n ∈ f.nests)
    (hj : j ∈ n.below.ids) : n ∈ path := by
  induction f generalizing path with
  | nil => cases h
  | cons r below after ihb iha =>
      have ap := apart_of_nodup hf
      rw [nests, List.mem_cons, List.mem_append] at hn
      have hbelow : j ∈ below.ids → ∃ p, above j below = some p ∧ path = ⟨r, below⟩ :: p := by
        intro hjb
        obtain ⟨p, hp⟩ := exists_above_of_mem_ids hjb
        rw [above_of_below ap hp] at h
        exact ⟨p, hp, (Option.some.inj h).symm⟩
      rcases hn with rfl | hn | hn
      · obtain ⟨p, -, rfl⟩ := hbelow hj
        exact List.mem_cons_self
      · obtain ⟨p, hp, rfl⟩ := hbelow (mem_ids_of_mem_below hn hj)
        exact List.mem_cons_of_mem _ (ihb ap.nodupBelow hp hn)
      · obtain ⟨p, hp⟩ := exists_above_of_mem_ids (mem_ids_of_mem_below hn hj)
        rw [above_of_after ap hp] at h
        exact iha ap.nodupAfter (hp.trans h) hn

/-- **The path to a region** holds the nests that the region lies below. -/
theorem mem_above_iff (hf : f.ids.Nodup) (h : above j f = some path) :
    n ∈ path ↔ n ∈ f.nests ∧ j ∈ n.below.ids :=
  ⟨mem_of_mem_above h, fun ⟨hn, hj⟩ => mem_above_of_mem hf h hn hj⟩

/-- Of two members of a list, the relation between earlier and later ones holds one way or the
    other. -/
theorem eq_or_rel_of_pairwise {α : Type} {R : α → α → Prop} {xs : List α} (h : xs.Pairwise R)
    {x y : α} (hx : x ∈ xs) (hy : y ∈ xs) : x = y ∨ R x y ∨ R y x := by
  induction xs with
  | nil => exact absurd hx List.not_mem_nil
  | cons z zs ih =>
      obtain ⟨hz, hzs⟩ := List.pairwise_cons.mp h
      rcases List.mem_cons.mp hx with hxz | hxs <;> rcases List.mem_cons.mp hy with hyz | hys
      · exact .inl (hxz.trans hyz.symm)
      · exact .inr (.inl (hxz ▸ hz y hys))
      · exact .inr (.inr (hyz ▸ hz x hxs))
      · exact ih hzs hxs hys

/-- A path goes inward: each nest on it lies below those before it. -/
theorem pairwise_above (h : above j f = some path) :
    path.Pairwise fun n m => m ∈ n.below.nests := by
  induction f generalizing path with
  | nil => cases h
  | cons r below after ihb iha =>
      rw [above_cons] at h
      by_cases hr : r.id = j
      · rw [if_pos hr] at h
        obtain rfl := Option.some.inj h
        exact .nil
      · rw [if_neg hr] at h
        cases hb : above j below with
        | none =>
            rw [hb] at h
            exact iha h
        | some p =>
            rw [hb] at h
            obtain rfl := Option.some.inj h
            exact List.pairwise_cons.mpr ⟨fun m hm => (mem_of_mem_above hb hm).1, ihb hb⟩

/-- The path to a nest on a path is the part before that nest. -/
theorem above_of_append (hf : f.ids.Nodup) {before rest : List Nest}
    (h : above j f = some (before ++ n :: rest)) : above n.region.id f = some before := by
  induction f generalizing before with
  | nil => cases h
  | cons r below after ihb iha =>
      have ap := apart_of_nodup hf
      rw [above_cons] at h
      by_cases hr : r.id = j
      · -- nothing is around the first region
        rw [if_pos hr] at h
        exact absurd (Option.some.inj h).symm
          (List.append_ne_nil_of_right_ne_nil _ (List.cons_ne_nil _ _))
      · rw [if_neg hr] at h
        cases hb : above j below with
        | none =>
            rw [hb] at h
            exact above_of_after ap (iha ap.nodupAfter h)
        | some path =>
            rw [hb] at h
            have h : ⟨r, below⟩ :: path = before ++ n :: rest := Option.some.inj h
            cases before with
            | nil =>
                obtain ⟨rfl, -⟩ := List.cons.inj h
                exact if_pos rfl
            | cons m before =>
                obtain ⟨rfl, rfl⟩ := List.cons.inj h
                exact above_of_below ap (ihb ap.nodupBelow hb)

end Forest

theorem Nest.ids_eq (n : Nest) : n.ids = n.region.id :: n.below.ids := by
  rw [ids, regions, toForest, Forest.regions_cons, Forest.regions_nil, List.append_nil]
  rfl

namespace Forest

variable {f : Forest} {n : Nest} {id : RegionId}

/-- The nests in a nest of a forest are nests of the forest. -/
theorem nests_nest_subset (hn : n ∈ f.nests) : ∀ m ∈ n.toForest.nests, m ∈ f.nests := by
  intro m hm
  rw [Nest.toForest, nests, List.mem_cons, nests, List.append_nil] at hm
  rcases hm with rfl | hm
  · exact hn
  · exact nests_below_subset hn m hm

/-- The numbers of a nest of a forest are numbers of the forest. -/
theorem mem_ids_of_mem_nest (hn : n ∈ f.nests) (hid : id ∈ n.ids) : id ∈ f.ids := by
  rw [Nest.ids_eq] at hid
  rcases List.mem_cons.mp hid with rfl | hid
  · exact mem_ids_of_mem_nests hn
  · exact mem_ids_of_mem_below hn hid

/-- The numbers of a nest are different where those of the forest are. -/
theorem nodup_nest (hf : f.ids.Nodup) (hn : n ∈ f.nests) : n.ids.Nodup := by
  induction f with
  | nil => exact absurd hn List.not_mem_nil
  | cons r below after ihb iha =>
      have ap := apart_of_nodup hf
      rw [nests, List.mem_cons, List.mem_append] at hn
      rcases hn with rfl | hn | hn
      · rw [Nest.ids_eq]
        exact List.nodup_cons.mpr ⟨ap.notBelow, ap.nodupBelow⟩
      · exact ihb ap.nodupBelow hn
      · exact iha ap.nodupAfter hn

/-- No nest lies below itself. -/
theorem not_mem_below_self (hf : f.ids.Nodup) (hn : n ∈ f.nests) : n.region.id ∉ n.below.ids :=
  (List.nodup_cons.mp (n.ids_eq ▸ nodup_nest hf hn)).1

theorem nodup_below (hf : f.ids.Nodup) (hn : n ∈ f.nests) : n.below.ids.Nodup :=
  (List.nodup_cons.mp (n.ids_eq ▸ nodup_nest hf hn)).2

end Forest

/-! ## 3. Designs -/

namespace Design

variable {d : Design} {n : Nest} {a id j : RegionId}

theorem preorder_eq (d : Design) : d.preorder = d.root.id :: d.below.ids := by
  rw [preorder, forest, Nest.toForest, Forest.ids_cons, Forest.ids_nil, List.append_nil]
  rfl

theorem find?_root (d : Design) : d.find? d.root.id = some d.top := by
  rw [find?, forest, Nest.toForest, Forest.find?_cons]
  exact if_pos rfl

theorem above_eq {path : List Nest} (h : d.forest.above id = some path) : d.above id = path :=
  congrArg (fun o => o.getD []) h

theorem mem_of_mem_above (h : n ∈ d.above id) : n ∈ d.forest.nests ∧ id ∈ n.below.ids := by
  cases hp : d.forest.above id with
  | none =>
      rw [above, hp] at h
      exact absurd h List.not_mem_nil
  | some path => exact Forest.mem_of_mem_above hp (above_eq hp ▸ h)

theorem mem_ancestors_iff (hd : d.preorder.Nodup) :
    a ∈ d.ancestors j ↔ ∃ n ∈ d.forest.nests, n.region.id = a ∧ j ∈ n.below.ids := by
  rw [ancestors, List.mem_reverse, List.mem_map, above]
  cases hp : d.forest.above j with
  | none =>
      have hj := Forest.above_eq_none_iff.mp hp
      refine ⟨fun ⟨n, hn, _⟩ => absurd hn List.not_mem_nil, fun ⟨n, hn, _, hjn⟩ => ?_⟩
      exact absurd (Forest.mem_ids_of_mem_below hn hjn) hj
  | some path =>
      have key := fun n => Forest.mem_above_iff (n := n) hd hp
      constructor
      · rintro ⟨n, hn, rfl⟩
        exact ⟨n, ((key n).mp hn).1, rfl, ((key n).mp hn).2⟩
      · rintro ⟨n, hn, rfl, hjn⟩
        exact ⟨n, (key n).mpr ⟨hn, hjn⟩, rfl⟩

/-- What lies in a nest is its region and what has that region above it. -/
theorem mem_nest_ids_iff (hd : d.preorder.Nodup) (hn : d.find? id = some n) :
    j ∈ n.ids ↔ j = id ∨ id ∈ d.ancestors j := by
  obtain ⟨hmem, hid⟩ := Forest.find?_mem hn
  rw [Nest.ids_eq, List.mem_cons, hid, mem_ancestors_iff hd]
  refine or_congr_right ⟨fun h => ⟨n, hmem, hid, h⟩, ?_⟩
  rintro ⟨m, hm, hmid, hjm⟩
  rwa [Forest.eq_of_id_eq hd hmem hm (hid.trans hmid.symm)]

theorem mem_preorder_of_ancestor (hd : d.preorder.Nodup) (h : a ∈ d.ancestors j) :
    a ∈ d.preorder ∧ j ∈ d.preorder := by
  obtain ⟨n, hn, rfl, hj⟩ := (mem_ancestors_iff hd).mp h
  exact ⟨Forest.mem_ids_of_mem_nests hn, Forest.mem_ids_of_mem_below hn hj⟩

/-- **The nest of a region** holds the region and all that have it above them. -/
theorem mem_subtree_iff (hd : d.preorder.Nodup) :
    j ∈ d.subtree id ↔ j ∈ d.preorder ∧ (j = id ∨ id ∈ d.ancestors j) := by
  unfold subtree
  cases hn : d.find? id with
  | none =>
      have hid : id ∉ d.preorder := Forest.find?_eq_none_iff.mp hn
      refine ⟨fun h => absurd h List.not_mem_nil, ?_⟩
      rintro ⟨hj, rfl | h⟩
      · exact absurd hj hid
      · exact absurd (mem_preorder_of_ancestor hd h).1 hid
  | some n =>
      obtain ⟨hmem, rfl⟩ := Forest.find?_mem hn
      refine ⟨fun h => ⟨?_, (mem_nest_ids_iff hd hn).mp h⟩,
        fun h => (mem_nest_ids_iff hd hn).mpr h.2⟩
      have h : j ∈ n.ids := h
      rw [Nest.ids_eq, List.mem_cons] at h
      rcases h with rfl | h
      · exact Forest.mem_ids_of_mem_nests hmem
      · exact Forest.mem_ids_of_mem_below hmem h

/-- What is above an ancestor is an ancestor. -/
theorem ancestors_trans (hd : d.preorder.Nodup) (ha : a ∈ d.ancestors id)
    (hid : id ∈ d.ancestors j) : a ∈ d.ancestors j := by
  obtain ⟨n, hn, rfl, hin⟩ := (mem_ancestors_iff hd).mp ha
  obtain ⟨m, hm, rfl, hjm⟩ := (mem_ancestors_iff hd).mp hid
  obtain ⟨m', hm', hmm⟩ := Forest.mem_ids_iff.mp hin
  obtain rfl := Forest.eq_of_id_eq hd (Forest.nests_below_subset hn m' hm') hm hmm
  exact (mem_ancestors_iff hd).mpr ⟨n, hn, rfl, Forest.mem_ids_of_mem_below hm' hjm⟩

/-- Two regions above a third one: one of them is the other or lies above it. -/
theorem ancestors_comparable (hd : d.preorder.Nodup) (ha : a ∈ d.ancestors j)
    (hid : id ∈ d.ancestors j) : a = id ∨ a ∈ d.ancestors id ∨ id ∈ d.ancestors a := by
  rw [ancestors, List.mem_reverse, List.mem_map, above] at ha hid
  cases hp : d.forest.above j with
  | none =>
      rw [hp] at ha
      obtain ⟨n, hn, -⟩ := ha
      exact absurd hn List.not_mem_nil
  | some path =>
      rw [hp] at ha hid
      obtain ⟨n, hn, rfl⟩ := ha
      obtain ⟨m, hm, rfl⟩ := hid
      have hnf := (Forest.mem_of_mem_above hp hn).1
      have hmf := (Forest.mem_of_mem_above hp hm).1
      rcases Forest.eq_or_rel_of_pairwise (Forest.pairwise_above hp) hn hm with rfl | h | h
      · exact .inl rfl
      · have := Forest.mem_ids_of_mem_nests h
        exact .inr (.inl ((mem_ancestors_iff hd).mpr ⟨n, hnf, rfl, this⟩))
      · have := Forest.mem_ids_of_mem_nests h
        exact .inr (.inr ((mem_ancestors_iff hd).mpr ⟨m, hmf, rfl, this⟩))

/-- What is above a region of a nest is in the nest or above it. -/
theorem ancestors_of_mem_subtree (hd : d.preorder.Nodup) (hj : j ∈ d.subtree id)
    (ha : a ∈ d.ancestors j) : a ∈ d.subtree id ∨ a ∈ d.ancestors id := by
  obtain ⟨-, rfl | hid⟩ := (mem_subtree_iff hd).mp hj
  · exact .inr ha
  · have hmem := (mem_preorder_of_ancestor hd ha).1
    rcases ancestors_comparable hd ha hid with rfl | h | h
    · exact .inl ((mem_subtree_iff hd).mpr ⟨hmem, .inl rfl⟩)
    · exact .inr h
    · exact .inl ((mem_subtree_iff hd).mpr ⟨hmem, .inr h⟩)

theorem not_mem_ancestors_self (hd : d.preorder.Nodup) : a ∉ d.ancestors a := by
  intro h
  obtain ⟨n, hn, hid, hin⟩ := (mem_ancestors_iff hd).mp h
  exact Forest.not_mem_below_self hd hn (hid ▸ hin)

theorem nodup_ancestors (hd : d.preorder.Nodup) (j : RegionId) : (d.ancestors j).Nodup := by
  rw [ancestors, List.nodup_reverse, above]
  cases hp : d.forest.above j with
  | none => exact List.nodup_nil
  | some path =>
      refine List.pairwise_map.mpr
        ((Forest.pairwise_above hp).imp_of_mem fun {n m} hn _ hm heq => ?_)
      have hnest := (Forest.mem_of_mem_above hp hn).1
      exact Forest.not_mem_below_self hd hnest (heq ▸ Forest.mem_ids_of_mem_nests hm)

/-- **A region stands deeper than what is above it.** -/
theorem depth_lt_of_mem_ancestors (hd : d.preorder.Nodup) (h : a ∈ d.ancestors j) :
    d.depth a < d.depth j := by
  have hnodup : (a :: d.ancestors a).Nodup :=
    List.nodup_cons.mpr ⟨not_mem_ancestors_self hd, nodup_ancestors hd a⟩
  have hsub : a :: d.ancestors a ⊆ d.ancestors j := by
    intro i hi
    rcases List.mem_cons.mp hi with rfl | hi
    · exact h
    · exact ancestors_trans hd hi h
  have hlength : ∀ id, (d.ancestors id).length = d.depth id := fun id => by
    rw [ancestors, List.length_reverse, List.length_map, depth]
  have hle := (List.subperm_of_subset hnodup hsub).length_le
  rwa [List.length_cons, hlength, hlength] at hle

end Design

end DesignSpace
