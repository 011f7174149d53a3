/-
  Subject:   ARRAYS COPIED ONTO THE CHIP. On the way down to a region, an external array is copied
             by the outermost loop that is cut into tiles and accesses it, and by no other one.

  * `Nest.tiles`: a loop cut into tiles in which an array is accessed;
  * `Context.isPromoted_enter_iff`: what one nest adds to the arrays copied so far;
  * `Context.isPromoted_foldl_enter_iff`: the same of a whole path;
  * `Design.path`: the nests on the way to a region, its own one last;
  * `Design.Buffers`, `buffers_iff`: **the first such loop on a path copies the array**;
  * `Design.buffered_once`: the same of every design that is accepted.
-/
import DesignSpace.Proofs.Design.Distinct
import DesignSpace.Proofs.Design.Rules

namespace DesignSpace

/-! ## 1. Loops that copy -/

/-- Whether a nest is that of a loop cut into tiles in which an array is accessed. -/
def Nest.tiles (n : Nest) (name : String) : Bool :=
  n.region.loop?.any Loop.isTiled && n.accesses.any fun x => x.array = name

variable {c : Context} {d : Design} {n : Nest} {id : RegionId} {name : String} {a : ArrayDecl}
  {arrays : List ArrayDecl}

theorem Nest.tiles_iff : n.tiles name = true ↔
    (∃ l, n.region.loop? = some l ∧ l.isTiled = true) ∧ ∃ x ∈ n.accesses, x.array = name := by
  rw [tiles, Bool.and_eq_true, Option.any_eq_true, List.any_eq_true]
  simp only [decide_eq_true_eq]

namespace Context

/-! ## 2. One nest -/

theorem mem_promotions_iff : a ∈ c.promotions arrays n ↔
    a ∈ arrays ∧ a.storage = .external ∧ n.tiles a.name = true ∧ ¬ c.isPromoted a.name = true := by
  rw [Nest.tiles_iff]
  unfold promotions
  cases hl : n.region.loop? with
  | none => simp
  | some l =>
      by_cases ht : l.isTiled = true
      · show a ∈ (if l.isTiled then _ else _) ↔ _
        rw [if_pos ht, List.mem_filter]
        simp [ht, and_assoc]
      · show a ∈ (if l.isTiled then _ else _) ↔ _
        rw [if_neg ht]
        simp [ht]

theorem promoted_enter : (c.enter arrays n).promoted =
    c.promoted ++ (c.promotions arrays n).map ArrayDecl.name := by
  unfold enter
  cases n.region.loop? with
  | none => rfl
  | some l =>
      show (withFactor _ _ _).promoted = _
      unfold withFactor
      split <;> rfl

/-- **One nest** adds the external arrays that are accessed in it, if it is that of a loop cut into
    tiles. That some are copied already makes no difference to what is copied afterwards. -/
theorem isPromoted_enter_iff : (c.enter arrays n).isPromoted name = true ↔
    c.isPromoted name = true ∨
      (∃ a ∈ arrays, a.name = name ∧ a.storage = .external) ∧ n.tiles name = true := by
  have hmem : ∀ c : Context, c.isPromoted name = true ↔ name ∈ c.promoted := fun c =>
    List.contains_iff_mem
  rw [hmem, promoted_enter, List.mem_append, ← hmem, List.mem_map]
  constructor
  · rintro (h | ⟨a, ha, rfl⟩)
    · exact .inl h
    · obtain ⟨ha, hext, ht, -⟩ := mem_promotions_iff.mp ha
      exact .inr ⟨⟨a, ha, rfl, hext⟩, ht⟩
  · rintro (h | ⟨⟨a, ha, rfl, hext⟩, ht⟩)
    · exact .inl h
    · by_cases hp : c.isPromoted a.name = true
      · exact .inl hp
      · exact .inr ⟨a, mem_promotions_iff.mpr ⟨ha, hext, ht, hp⟩, rfl⟩

/-! ## 3. A path -/

/-- **Along a path** the external arrays are copied for which a loop of the path is cut into tiles
    and accesses them. -/
theorem isPromoted_foldl_enter_iff (path : List Nest) :
    (path.foldl (fun c n => c.enter arrays n) c).isPromoted name = true ↔
      c.isPromoted name = true ∨
        (∃ a ∈ arrays, a.name = name ∧ a.storage = .external) ∧
          ∃ n ∈ path, n.tiles name = true := by
  induction path generalizing c with
  | nil => simp
  | cons n path ih =>
      rw [List.foldl_cons, ih, isPromoted_enter_iff, List.exists_mem_cons_iff, and_or_left,
        or_assoc]

end Context

/-! ## 4. Designs -/

namespace Design

/-- The nests on the way from the root to a region, its own one last. -/
def path (d : Design) (id : RegionId) : List Nest := d.above id ++ (d.find? id).toList

/-- Of arrays with different names, the one with a name is external or it is not. -/
theorem external_iff (hnames : (d.arrays.map ArrayDecl.name).Nodup) (ha : a ∈ d.arrays) :
    (∃ b ∈ d.arrays, b.name = a.name ∧ b.storage = .external) ↔ a.storage = .external := by
  constructor
  · rintro ⟨b, hb, hname, hext⟩
    rwa [← List.inj_on_of_nodup_map hnames hb ha hname]
  · intro hext
    exact ⟨a, ha, rfl, hext⟩

/-- **An array is on the chip for a region** if it is external and a loop around the region is cut
    into tiles and accesses it. -/
theorem isPromoted_context_iff (hnames : (d.arrays.map ArrayDecl.name).Nodup) (ha : a ∈ d.arrays)
    (id : RegionId) : (d.context id).isPromoted a.name = true ↔
      a.storage = .external ∧ ∃ n ∈ d.above id, n.tiles a.name = true := by
  have hnone : ¬ ({} : Context).isPromoted a.name = true := Bool.false_ne_true
  rw [context, Context.isPromoted_foldl_enter_iff, external_iff hnames ha]
  exact or_iff_right hnone

/-- What is above a nest of a path stands before it on the path. -/
theorem above_of_path (hd : d.preorder.Nodup) {before rest : List Nest}
    (h : d.path id = before ++ n :: rest) : d.above n.region.id = before := by
  unfold path at h
  cases hm : d.find? id with
  | none =>
      have hnone := Forest.above_eq_none_iff.mpr (Forest.find?_eq_none_iff.mp hm)
      rw [hm, above, hnone] at h
      exact absurd h.symm (List.append_ne_nil_of_right_ne_nil _ (List.cons_ne_nil _ _))
  | some m =>
      obtain ⟨hmem, hid⟩ := Forest.find?_mem hm
      obtain ⟨p, hp⟩ := Forest.exists_above_of_mem_ids (hid ▸ Forest.mem_ids_of_mem_nests hmem)
      rw [hm, above_eq hp] at h
      -- the nest is the last one of the path, or it is above the region
      rcases List.eq_nil_or_concat rest with rfl | ⟨rest, x, rfl⟩
      · obtain ⟨rfl, hlast⟩ := List.append_inj' h rfl
        obtain rfl : m = n := List.singleton_inj.mp hlast
        rw [hid]
        exact above_eq hp
      · rw [List.concat_eq_append, ← List.cons_append, ← List.append_assoc] at h
        obtain ⟨rfl, -⟩ := List.append_inj' h rfl
        exact above_eq (Forest.above_of_append hd hp)

/-- A nest stands once on a path. -/
theorem not_mem_of_path (hd : d.preorder.Nodup) {before rest : List Nest}
    (h : d.path id = before ++ n :: rest) : n ∉ before := by
  intro hn
  have habove := above_of_path hd h
  have hself : n.region.id ∈ d.ancestors n.region.id := by
    rw [ancestors, habove, List.mem_reverse]
    exact List.mem_map_of_mem hn
  exact not_mem_ancestors_self hd hself

/-- A nest copies an array onto the chip: it does so in the context that the nests around it
    impose. -/
def Buffers (d : Design) (n : Nest) (a : ArrayDecl) : Prop :=
  a ∈ (d.context n.region.id).promotions d.arrays n

/-- **The first loop of a path** that is cut into tiles and accesses an external array copies it,
    and no other one of the path does. -/
theorem buffers_iff (hd : d.preorder.Nodup) (hnames : (d.arrays.map ArrayDecl.name).Nodup)
    (ha : a ∈ d.arrays) (hn : n ∈ d.path id) : d.Buffers n a ↔
      a.storage = .external ∧ (d.path id).find? (fun n => n.tiles a.name) = some n := by
  obtain ⟨before, rest, hpath⟩ := List.append_of_mem hn
  rw [Buffers, Context.mem_promotions_iff, isPromoted_context_iff hnames ha,
    above_of_path hd hpath, hpath, List.find?_append, and_iff_right ha]
  refine and_congr_right fun hext => ?_
  rw [and_iff_right hext]
  constructor
  · rintro ⟨ht, hbefore⟩
    have hnone : before.find? (fun n => n.tiles a.name) = none :=
      List.find?_eq_none.mpr fun m hm h => hbefore ⟨m, hm, h⟩
    rw [hnone, Option.none_or]
    exact List.find?_cons_of_pos ht
  · intro hfind
    cases hfirst : before.find? (fun n => n.tiles a.name) with
    | none =>
        rw [hfirst, Option.none_or] at hfind
        exact ⟨List.find?_some (p := fun n : Nest => n.tiles a.name) hfind,
          fun ⟨m, hm, h⟩ => List.find?_eq_none.mp hfirst m hm h⟩
    | some m =>
        rw [hfirst, Option.some_or] at hfind
        obtain rfl := Option.some.inj hfind
        exact absurd (List.mem_of_find?_eq_some hfirst) (not_mem_of_path hd hpath)

/-- **No array is on the chip without memory**: it lives there, or a loop around the region copies
    it. -/
theorem isOnChip_context_iff (hd : d.preorder.Nodup) (hnames : (d.arrays.map ArrayDecl.name).Nodup)
    (ha : a ∈ d.arrays) (id : RegionId) : (d.context id).isOnChip a = true ↔
      a.storage = .onChip ∨ ∃ n ∈ d.above id, d.Buffers n a := by
  rw [Context.isOnChip, Bool.or_eq_true, beq_iff_eq, isPromoted_context_iff hnames ha]
  refine or_congr_right ?_
  have habove : ∀ n ∈ d.above id, n ∈ d.path id := fun n hn => List.mem_append_left _ hn
  constructor
  · rintro ⟨hext, hsome⟩
    rw [← List.find?_isSome, Option.isSome_iff_exists] at hsome
    obtain ⟨n, hfind⟩ := hsome
    have hn := List.mem_of_find?_eq_some hfind
    refine ⟨n, hn, (buffers_iff hd hnames ha (habove n hn)).mpr ⟨hext, ?_⟩⟩
    rw [path, List.find?_append, hfind, Option.some_or]
  · rintro ⟨n, hn, hbuffers⟩
    obtain ⟨hext, hfind⟩ := (buffers_iff hd hnames ha (habove n hn)).mp hbuffers
    exact ⟨hext, n, hn, List.find?_some (p := fun n : Nest => n.tiles a.name) hfind⟩

/-! ## 5. Designs that are accepted -/

/-- **Every external array is copied once.** For a region of a design that is accepted, an array is
    copied onto the chip exactly if it is external and a loop around the region is cut into tiles
    and accesses it. On the way from the root to the region, the outermost such loop copies it and
    no other one does; and an array that counts as on the chip lives there, or one of the loops
    around the region copies it. -/
theorem buffered_once {l : Listing} (hd : l.design = .ok d) (ha : a ∈ d.arrays) (id : RegionId) :
    ((d.context id).isPromoted a.name = true ↔
        a.storage = .external ∧ ∃ n ∈ d.above id, n.tiles a.name = true) ∧
      (∀ n ∈ d.path id, d.Buffers n a ↔
        a.storage = .external ∧ (d.path id).find? (fun n => n.tiles a.name) = some n) ∧
      (∀ n ∈ d.path id, ∀ m ∈ d.path id, d.Buffers n a → d.Buffers m a → n = m) ∧
      ((d.context id).isOnChip a = true ↔
        a.storage = .onChip ∨ ∃ n ∈ d.above id, d.Buffers n a) := by
  have hdistinct := Listing.nodup_of_design hd
  have hnames := (check_eq_ok_iff.mp (Listing.tree_of_design hd).2).1
  have hfirst : ∀ n ∈ d.path id, d.Buffers n a ↔
      a.storage = .external ∧ (d.path id).find? (fun n => n.tiles a.name) = some n :=
    fun n hn => buffers_iff hdistinct hnames ha hn
  refine ⟨isPromoted_context_iff hnames ha id, hfirst, fun n hn m hm hbn hbm => ?_,
    isOnChip_context_iff hdistinct hnames ha id⟩
  have hsame := ((hfirst n hn).mp hbn).2.symm.trans ((hfirst m hm).mp hbm).2
  exact Option.some.inj hsame

end Design

namespace Blocked

/-- The outer loop, in tiles of eight. -/
def outer : Loop := { iv := "i", trip := .static 16, directives := ⟨false, 1, some 8⟩ }

/-- The inner loop, in tiles of four. -/
def inner : Loop := { iv := "j", trip := .static 16, directives := ⟨false, 1, some 4⟩ }

/-- One element read. -/
def body : Block where
  accesses := [⟨"x", .read, [⟨"i", ["i"]⟩, ⟨"j", ["j"]⟩]⟩]

/-- The array that lives outside. -/
def grid : ArrayDecl := { name := "x", shape := [16, 16], storage := .external }

/-- Two loops in tiles around a block that reads an external array. -/
def listing : Listing where
  name := "blocked"
  records :=
    [⟨⟨0, .func { name := "top" }, none⟩, none⟩, ⟨⟨1, .loop outer, none⟩, some 0⟩,
     ⟨⟨2, .loop inner, none⟩, some 1⟩, ⟨⟨3, .block body, none⟩, some 2⟩]
  arrays := [grid]

/-- The nest of the inner loop. -/
def inside : Nest := ⟨⟨2, .loop inner, none⟩, .cons ⟨3, .block body, none⟩ .nil .nil⟩

/-- The nest of the outer loop. -/
def around : Nest := ⟨⟨1, .loop outer, none⟩, inside.toForest⟩

/-- The loops as a tree. -/
def design : Design where
  name := "blocked"
  root := ⟨0, .func { name := "top" }, none⟩
  below := around.toForest
  arrays := [grid]

theorem design_listing : listing.design = .ok design := by decide +kernel

end Blocked

/-- Both loops are cut into tiles and access the array. The outer one copies it, and the inner one
    does not. -/
theorem Design.buffered_once_blocked : Blocked.listing.design = .ok Blocked.design ∧
    (Blocked.design.context 3).isPromoted "x" = true ∧
    Blocked.design.Buffers Blocked.around Blocked.grid ∧
    ¬ Blocked.design.Buffers Blocked.inside Blocked.grid := by
  have hpath : ∀ n ∈ [Blocked.around, Blocked.inside], n ∈ Blocked.design.path 3 := by
    decide +kernel
  obtain ⟨hpromoted, hfirst, honce, -⟩ := Design.buffered_once Blocked.design_listing
    (a := Blocked.grid) List.mem_cons_self 3
  have haround := hpath Blocked.around (by decide)
  have hinside := hpath Blocked.inside (by decide)
  have hbuffers : Blocked.design.Buffers Blocked.around Blocked.grid :=
    (hfirst _ haround).mpr ⟨rfl, by decide +kernel⟩
  refine ⟨Blocked.design_listing, hpromoted.mpr ⟨rfl, Blocked.around, ?_⟩, hbuffers, ?_⟩
  · decide +kernel
  · intro hinner
    exact absurd (honce _ haround _ hinside hbuffers hinner) (by decide)

end DesignSpace
