/-
  Subject:   THE MEMORY OF ARRAYS IN THE ESTIMATE OF THE ROOT. It is counted at the scope of an
             array and handed on from region to region, but not through a loop that is pipelined:
             such a loop is priced with a flat body of blocks, and what functions and dataflow
             nodes below it hold is left out.

  * `Forest.openNests`: the nests that no pipelined loop is around;
  * `Estimator.storage_le_fresh`: the regions of a forest hold the arrays of its open scopes;
  * `Design.storage_le_rootMetrics`: **the root holds all arrays whose scope is not buried**;
  * `Buried.storage_dropped`: an array whose scope is buried is in no account.
-/
import DesignSpace.Proofs.Design.WellFormed
import DesignSpace.Proofs.Estimate.Compose
import Mathlib.Algebra.Order.BigOperators.Group.List
import Mathlib.Algebra.Order.Group.Nat

namespace DesignSpace

/-! ## 1. Open nests -/

/-- The nests of a forest that no pipelined loop of the forest is around. -/
def Forest.openNests : Forest → List Nest
  | nil => []
  | cons r below after =>
    ⟨r, below⟩ :: ((if r.isPipelined then [] else below.openNests) ++ after.openNests)

/-- The arrays on the chip that live as long as a region. -/
def Design.held (d : Design) (id : RegionId) : List ArrayDecl :=
  (d.scopedTo id).filter fun a => a.storage == .onChip

/-- The memory of arrays, where counts have no limit. -/
def memoryOf (arrays : List ArrayDecl) : Nat := (arrays.map ArrayDecl.storageElements).sum

/-- The memory of the arrays that live as long as a nest, if its region is a scope. -/
def Design.heldBy (d : Design) (n : Nest) : Nat :=
  if n.region.kind.isScope then memoryOf (d.held n.region.id) else 0

/-- The memory of the arrays on the chip that live as long as some scopes. -/
def Design.memoryHeld (d : Design) (nests : List Nest) : Nat := (nests.map d.heldBy).sum

variable {e : Estimator} {d : Design} {c : Context} {f : Forest} {n : Nest} {t : Table}

theorem Design.memoryHeld_append (d : Design) (ns ms : List Nest) :
    d.memoryHeld (ns ++ ms) = d.memoryHeld ns + d.memoryHeld ms := by
  rw [memoryHeld, List.map_append, List.sum_append]
  rfl

theorem Design.memoryHeld_cons (d : Design) (n : Nest) (ns : List Nest) :
    d.memoryHeld (n :: ns) = d.heldBy n + d.memoryHeld ns := by
  rw [memoryHeld, List.map_cons, List.sum_cons]
  rfl

theorem Design.heldBy_scope (h : n.region.kind.isScope = true) :
    d.heldBy n = memoryOf (d.held n.region.id) := if_pos h

theorem Design.heldBy_other (h : ¬ n.region.kind.isScope = true) : d.heldBy n = 0 := if_neg h

/-- Below a loop with nothing but blocks directly below it there is no scope. -/
theorem Design.memoryHeld_of_blocks (hf : f.Leafy)
    (hblocks : ∀ n ∈ f.roots, n.region.block?.isSome) : d.memoryHeld f.openNests = 0 := by
  induction f with
  | nil => rfl
  | cons r below after _ iha =>
      have hr : r.block?.isSome := hblocks ⟨r, below⟩ List.mem_cons_self
      have hnil := hf.leaf hr
      have hscope := Region.not_isScope_of_block? hr
      have hopen : (Forest.cons r below after).openNests = ⟨r, below⟩ :: after.openNests := by
        rw [Forest.openNests, hnil]
        by_cases h : r.isPipelined <;> simp [h, Forest.openNests]
      rw [hopen, memoryHeld_cons, heldBy_other hscope, Nat.zero_add]
      exact iha hf.ofAfter fun n hn => hblocks n (List.mem_cons_of_mem _ hn)

/-! ## 2. Memory handed on -/

/-- The arrays that live as long as a region are part of its memory. -/
theorem Design.memoryOf_held_le (d : Design) (n : Nest) (stages : List Span) :
    min (memoryOf (d.held n.region.id)) Count.limit ≤ d.scopedStorage n stages := by
  have hlimit : ∀ a : ArrayDecl, a.storageElements ≤ Count.limit := fun a => Count.mul_le_limit _ _
  unfold scopedStorage memoryOf
  rw [Count.sum_eq]
  show min ((d.held n.region.id).map ArrayDecl.storageElements).sum Count.limit ≤
    min ((d.held n.region.id).map _).sum Count.limit
  generalize d.held n.region.id = arrays
  induction arrays with
  | nil => exact Nat.le_refl _
  | cons a as ih =>
      have ha := hlimit a
      have hdouble : a.storageElements ≤ Count.mul a.storageElements 2 := by
        unfold Count.mul
        omega
      rw [List.map_cons, List.map_cons, List.sum_cons, List.sum_cons]
      split <;> omega

namespace Estimator

/-- The memory of several regions. -/
def storageOf (parts : List Metrics) : Nat :=
  (parts.map fun p => p.resources.storageElements).sum

/-- A scope has the memory of its parts and of the arrays that live as long as it. -/
theorem storage_scopeMetrics (parts : List Metrics) (controllers : Nat) :
    min (storageOf parts + memoryOf (d.held n.region.id)) Count.limit ≤
      (scopeMetrics d n parts controllers).resources.storageElements := by
  have hparts := storage_le_composeStages (stagesOf_slices n parts).1
  have hheld := d.memoryOf_held_le n (stagesOf n parts)
  show _ ≤ Count.add (composeStages parts (stagesOf n parts)).resources.storageElements
    (d.scopedStorage n (stagesOf n parts))
  unfold Count.add storageOf
  omega

/-- A loop around a body has the memory of the body. -/
theorem storage_outerLoopMetrics {l : Loop} (hl : n.region.loop? = some l) (body : Metrics) :
    min body.resources.storageElements Count.limit ≤
      (CostModel.outerLoopMetrics d.arrays c n body).resources.storageElements := by
  have hstorage : (CostModel.outerLoopMetrics d.arrays c n body).resources.storageElements =
      Count.add body.resources.storageElements (c.tileBuffers d.arrays n).storage := by
    unfold CostModel.outerLoopMetrics
    rw [hl]
    dsimp only
    split <;> rfl
  rw [hstorage]
  unfold Count.add
  omega

/-- A loop that is not pipelined holds what its parts hold. -/
theorem storage_combine_loop {l : Loop} (hk : n.region.kind = .loop l) (hbelow : n.below.Leafy)
    (parts : List Metrics) (hp : ¬ l.directives.pipeline = true)
    (hparts : min (d.memoryHeld n.below.openNests) Count.limit ≤ storageOf parts) :
    min (d.memoryHeld n.below.openNests) Count.limit ≤
      (e.combine d c n parts).resources.storageElements := by
  have hl : n.region.loop? = some l := by rw [Region.loop?, hk]
  have hcombine : e.combine d c n parts =
      if l.directives.pipeline || n.isInnermostLoop then e.model.flatLoopMetrics d.arrays c n
      else CostModel.outerLoopMetrics d.arrays c n (composeStages parts (stagesOf n parts)) := by
    rw [combine, hk]
  by_cases hinner : n.isInnermostLoop = true
  · -- The flat body of an innermost loop leaves nothing out: only blocks are below it.
    have hblocks : ∀ m ∈ n.below.roots, m.region.block?.isSome := by
      unfold Nest.isInnermostLoop at hinner
      exact fun m hm => List.all_eq_true.mp (Bool.and_eq_true_iff.mp hinner).2 m hm
    rw [Design.memoryHeld_of_blocks hbelow hblocks]
    exact Nat.le_trans (Nat.min_le_left _ _) (Nat.zero_le _)
  · rw [hcombine, if_neg (by simp [hp, hinner])]
    have houter := storage_outerLoopMetrics (d := d) (c := c) hl
      (composeStages parts (stagesOf n parts))
    have hstages := storage_le_composeStages (stagesOf_slices n parts).1
    unfold storageOf at hparts
    omega

/-- A scope holds what its parts hold and its own arrays. -/
theorem storage_combine_scope (hscope : n.region.kind.isScope = true) (parts : List Metrics)
    (hparts : min (d.memoryHeld n.below.openNests) Count.limit ≤ storageOf parts) :
    min (d.heldBy n + d.memoryHeld n.below.openNests) Count.limit ≤
      (e.combine d c n parts).resources.storageElements := by
  have hcombine : ∃ controllers, e.combine d c n parts = scopeMetrics d n parts controllers := by
    cases hk : n.region.kind with
    | func f => exact ⟨1, by rw [combine, hk]⟩
    | dataflow => exact ⟨0, by rw [combine, hk]⟩
    | _ => simp [hk, Kind.isScope] at hscope
  obtain ⟨controllers, hcombine⟩ := hcombine
  have hmetrics := storage_scopeMetrics (d := d) (n := n) parts controllers
  rw [Design.heldBy_scope hscope, hcombine]
  omega

/-- **One region**: what its parts hold it holds too, unless it is a loop that is pipelined, and a
    scope holds its arrays besides. -/
theorem storage_combine (hleaf : n.region.block?.isSome → n.below = .nil) (hbelow : n.below.Leafy)
    (parts : List Metrics)
    (hparts : min (d.memoryHeld n.below.openNests) Count.limit ≤ storageOf parts) :
    min (d.heldBy n +
        d.memoryHeld (if n.region.isPipelined then [] else n.below.openNests)) Count.limit ≤
      (e.combine d c n parts).resources.storageElements := by
  have hnothing : d.memoryHeld [] = 0 := rfl
  cases hk : n.region.kind with
  | block b =>
      have hnil : n.below = .nil := hleaf (by rw [Region.block?, hk]; rfl)
      have hopen : n.below.openNests = [] := by rw [hnil]; rfl
      rw [Design.heldBy_other (by simp [hk, Kind.isScope]), hopen, ite_self, hnothing]
      exact Nat.le_trans (Nat.min_le_left _ _) (Nat.zero_le _)
  | loop l =>
      have hpipelined : n.region.isPipelined = l.directives.pipeline := by
        rw [Region.isPipelined, Region.loop?, hk]
      rw [Design.heldBy_other (by simp [hk, Kind.isScope]), Nat.zero_add, hpipelined]
      by_cases hp : l.directives.pipeline = true
      · rw [if_pos hp, hnothing]
        exact Nat.le_trans (Nat.min_le_left _ _) (Nat.zero_le _)
      · rw [if_neg hp]
        exact storage_combine_loop hk hbelow parts hp hparts
  | _ =>
      have hopen : ¬ n.region.isPipelined = true := by
        simp [Region.isPipelined, Region.loop?, hk]
      rw [if_neg hopen]
      exact storage_combine_scope (by simp [hk, Kind.isScope]) parts hparts

/-- **The regions of a forest hold the arrays of its open scopes.** -/
theorem storage_le_fresh (hf : f.Leafy) :
    min (d.memoryHeld f.openNests) Count.limit ≤ storageOf (e.fresh d c f) := by
  induction f generalizing c with
  | nil => exact Nat.min_le_left _ _
  | cons r below after ihb iha =>
      have hfirst := storage_combine (e := e) (d := d) (c := c) (n := ⟨r, below⟩) hf.leaf
        hf.ofBelow _ (ihb (c := c.enter d.arrays ⟨r, below⟩) hf.ofBelow)
      have hrest := iha (c := c) hf.ofAfter
      have hsum : storageOf (e.fresh d c (.cons r below after)) =
          (e.combine d c ⟨r, below⟩
            (e.fresh d (c.enter d.arrays ⟨r, below⟩) below)).resources.storageElements +
              storageOf (e.fresh d c after) := by
        rw [fresh, storageOf, List.map_cons, List.sum_cons]
        rfl
      rw [Forest.openNests, Design.memoryHeld_cons, Design.memoryHeld_append, hsum]
      dsimp only at hfirst
      omega

end Estimator

/-! ## 3. The root -/

/-- A nest that no pipelined loop is around is open. -/
theorem Forest.mem_openNests (hf : f.ids.Nodup) {path : List Nest}
    (hpath : above n.region.id f = some path) (hn : n ∈ f.nests)
    (hopen : ∀ m ∈ path, ¬ m.region.isPipelined = true) : n ∈ f.openNests := by
  induction f generalizing path with
  | nil => exact absurd hn List.not_mem_nil
  | cons r below after ihb iha =>
      have ap := apart_of_nodup hf
      rw [nests, List.mem_cons, List.mem_append] at hn
      rw [openNests, List.mem_cons, List.mem_append]
      rcases hn with rfl | hn | hn
      · exact .inl rfl
      · obtain ⟨inner, hinner⟩ := exists_above_of_mem_ids (mem_ids_of_mem_nests hn)
        rw [above_of_below ap hinner] at hpath
        obtain rfl := Option.some.inj hpath
        obtain ⟨hr, hrest⟩ := List.forall_mem_cons.mp hopen
        rw [if_neg hr]
        exact .inr (.inl (ihb ap.nodupBelow hinner hn hrest))
      · obtain ⟨rest, hrest⟩ := exists_above_of_mem_ids (mem_ids_of_mem_nests hn)
        rw [above_of_after ap hrest] at hpath
        exact .inr (.inr (iha ap.nodupAfter (hrest.trans hpath) hn hopen))

/-- What an array adds to the memory that a nest holds. -/
def Design.share (d : Design) (a : ArrayDecl) (n : Nest) : Nat :=
  if n.region.kind.isScope && (decide (d.scopeOf a = n.region.id) && a.storage == .onChip) then
    a.storageElements
  else 0

theorem memoryOf_filter (p : ArrayDecl → Bool) (arrays : List ArrayDecl) :
    memoryOf (arrays.filter p) =
      (arrays.map fun a => if p a then a.storageElements else 0).sum := by
  induction arrays with
  | nil => rfl
  | cons a as ih =>
      rw [List.map_cons, List.sum_cons, ← ih, List.filter_cons]
      by_cases h : p a = true
      · rw [if_pos h, if_pos h]
        rfl
      · rw [if_neg h, if_neg h, Nat.zero_add]

theorem Design.heldBy_eq (d : Design) (n : Nest) :
    d.heldBy n = (d.arrays.map fun a => d.share a n).sum := by
  unfold share
  rw [← memoryOf_filter, heldBy, held, scopedTo, List.filter_filter]
  by_cases h : n.region.kind.isScope = true
  · rw [if_pos h]
    simp [h, Bool.and_comm]
  · rw [if_neg h]
    simp [h, memoryOf]

/-- The memory that nests hold, array by array. -/
theorem Design.memoryHeld_eq (d : Design) (nests : List Nest) :
    d.memoryHeld nests = (d.arrays.map fun a => (nests.map (d.share a)).sum).sum := by
  induction nests with
  | nil => simp [memoryHeld]
  | cons n ns ih =>
      rw [memoryHeld_cons, ih, heldBy_eq, ← List.sum_map_add]
      simp only [List.map_cons, List.sum_cons]

/-- Arrays that each live as long as a scope among some nests have no more memory than these
    nests hold. -/
theorem Design.memoryOf_filter_le {nests : List Nest} {p : ArrayDecl → Bool}
    (h : ∀ a ∈ d.arrays, p a = true → a.storage = .onChip ∧
      ∃ n ∈ nests, n.region.kind.isScope = true ∧ d.scopeOf a = n.region.id) :
    memoryOf (d.arrays.filter p) ≤ d.memoryHeld nests := by
  rw [memoryOf_filter, memoryHeld_eq]
  refine List.sum_le_sum fun a ha => ?_
  by_cases hp : p a = true
  · obtain ⟨hchip, n, hn, hscope, hid⟩ := h a ha hp
    have hshare : d.share a n = a.storageElements := by simp [share, hscope, hid, hchip]
    rw [if_pos hp, ← hshare]
    exact List.single_le_sum (fun _ _ => Nat.zero_le _) _ (List.mem_map_of_mem hn)
  · rw [if_neg hp]
    exact Nat.zero_le _

namespace Design

/-- The scope of an array of a design that keeps the rules is open, unless it is buried. -/
theorem exists_open_scope (hd : d.preorder.Nodup) (hc : d.check = .ok ()) {a : ArrayDecl}
    (ha : a ∈ d.arrays) (hopen : d.buried (d.scopeOf a) = false) :
    ∃ n ∈ d.forest.openNests, n.region.kind.isScope = true ∧ d.scopeOf a = n.region.id := by
  obtain ⟨n, hfind, hscope⟩ := scope_of_check hc ha
  obtain ⟨hn, hid⟩ := Forest.find?_mem hfind
  obtain ⟨path, hpath⟩ := Forest.exists_above_of_mem_ids (Forest.mem_ids_of_mem_nests hn)
  have habove : d.above (d.scopeOf a) = path := by
    rw [above, ← hid, hpath]
    rfl
  rw [buried, habove, List.any_eq_false] at hopen
  exact ⟨n, Forest.mem_openNests hd hpath hn hopen, hscope, hid.symm⟩

/-- The arrays on the chip that no pipelined loop hides from the root. -/
def openArrays (d : Design) : List ArrayDecl :=
  d.arrays.filter fun a => a.storage == .onChip && !d.buried (d.scopeOf a)

/-- **The root holds all arrays whose scope is not buried**, in a design that keeps the rules. -/
theorem storage_le_rootMetrics (e : Estimator) (hd : d.preorder.Nodup) (hc : d.check = .ok ()) :
    Count.sum (d.openArrays.map ArrayDecl.storageElements) ≤
      (e.rootMetrics d).resources.storageElements := by
  have hheld : memoryOf d.openArrays ≤ d.memoryHeld d.forest.openNests := by
    refine memoryOf_filter_le fun a ha hp => ?_
    obtain ⟨hchip, hopen⟩ := Bool.and_eq_true_iff.mp hp
    exact ⟨eq_of_beq hchip, exists_open_scope hd hc ha (by simpa using hopen)⟩
  have hfresh := Estimator.storage_le_fresh (e := e) (d := d) (c := {}) (leafy_of_check hc)
  have hroot : Estimator.storageOf (e.fresh d {} d.forest) =
      (e.rootMetrics d).resources.storageElements := Nat.add_zero _
  rw [Count.sum_eq, ← hroot]
  unfold memoryOf at hheld
  omega

end Design

/-- **What an estimate of a design accounts for.** Any estimate of a listing's design from nothing
    succeeds, and its root has at least the memory of the arrays on the chip whose scope no
    pipelined loop is around, each with its elements, width and banks. -/
theorem Estimator.storage_le_run {l : Listing} (hd : l.design = .ok d) (e : Estimator) (t : Table) :
    ∃ summary a, e.run ⟨d, t⟩ = .ok (summary, a) ∧
      Count.sum (d.openArrays.map fun a =>
        DesignSpace.storageElements a.elements a.bits a.partition) ≤
        summary.metrics.resources.storageElements := by
  have hdistinct := Listing.nodup_of_design hd
  have hc := (Listing.tree_of_design hd).2
  have hrun : e.run ⟨d, t⟩ = .ok (_, _) := run_eq_ok_iff.mpr ⟨hc, rfl, rfl⟩
  obtain ⟨hcomplete, hdesign⟩ := complete_run (a := ⟨d, t⟩) hdistinct hrun
  refine ⟨_, _, hrun, ?_⟩
  rw [metrics_summary hcomplete, hdesign]
  exact Design.storage_le_rootMetrics e hdistinct hc

/-- Both loops of a design without pipelining leave its array on the chip in sight. -/
theorem Estimator.storage_le_run_smoothing :
    Smoothing.listing.design = .ok Smoothing.design ∧
      Smoothing.design.openArrays.map ArrayDecl.name = ["y"] ∧
      ∃ summary a, (Estimator.new none {}).run ⟨Smoothing.design, .empty⟩ = .ok (summary, a) ∧
        Count.sum (Smoothing.design.openArrays.map fun a =>
          DesignSpace.storageElements a.elements a.bits a.partition) ≤
          summary.metrics.resources.storageElements :=
  ⟨Smoothing.design_listing, by decide +kernel,
    Estimator.storage_le_run Smoothing.design_listing (Estimator.new none {}) .empty⟩

/-! ## 4. An array that is lost -/

namespace Buried

/-- Sums over an array of the function around the block. -/
def body : Block where
  ops := [⟨.add, 32⟩]
  accesses := [⟨"tmp", .read, [⟨"i", ["i"]⟩]⟩, ⟨"tmp", .write, [⟨"i", ["i"]⟩]⟩]

/-- A pipelined loop that calls a function with an array of its own. -/
def listing : Listing where
  name := "buried"
  records :=
    [⟨⟨0, .func { name := "top" }, none⟩, none⟩,
     ⟨⟨1, .loop { iv := "i", trip := .static 4, directives := ⟨true, 1, none⟩ }, none⟩, some 0⟩,
     ⟨⟨2, .func { name := "inner" }, none⟩, some 1⟩,
     ⟨⟨3, .block body, none⟩, some 2⟩]
  arrays := [{ name := "tmp", shape := [64], scope := some 2 }]

/-- The function as a tree. -/
def design : Design where
  name := "buried"
  root := ⟨0, .func { name := "top" }, none⟩
  below :=
    .cons ⟨1, .loop { iv := "i", trip := .static 4, directives := ⟨true, 1, none⟩ }, none⟩
      (.cons ⟨2, .func { name := "inner" }, none⟩
        (.cons ⟨3, .block body, none⟩ .nil .nil) .nil) .nil
  arrays := listing.arrays

/-- **The root has no memory for the array**: the loop is priced with a flat body of blocks, and the
    memory of the function below it is not handed on. -/
theorem storage_dropped : listing.design = .ok design ∧ ∃ summary a,
    (Estimator.new none {}).run ⟨design, .empty⟩ = .ok (summary, a) ∧
      summary.metrics.resources.storageElements <
        Count.sum ((design.arrays.filter fun a => a.storage == .onChip).map fun a =>
          DesignSpace.storageElements a.elements a.bits a.partition) := by
  have hlisting : listing.design = .ok design := by decide +kernel
  have hrun : (Estimator.new none {}).run ⟨design, .empty⟩ = .ok (_, _) :=
    Estimator.run_eq_ok_iff.mpr ⟨(Listing.tree_of_design hlisting).2, rfl, rfl⟩
  exact ⟨hlisting, _, _, hrun, by decide +kernel⟩

end Buried

end DesignSpace
