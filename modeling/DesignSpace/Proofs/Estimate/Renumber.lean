/-
  Subject:   ESTIMATES DEPEND ON THE TREE ALONE, not on the numbers of its regions or the order of
             its listing.

  * `Context.enter_renumber`, `CostModel.flatLoopMetrics_renumber`, `outerLoopMetrics_renumber`:
    contexts and costs ask for no number;
  * `Design.scopedStorage_renumber`: nor does the memory of a region, where different regions have
    different numbers;
  * `Estimator.combine_renumber`, `fresh_renumber`, `estimate?_renumber`: so no estimate does;
  * `Estimator.run_renumber`: **a listing with other numbers and in another order is estimated as
    the listing is**, region by region.
-/
import DesignSpace.Report
import DesignSpace.Proofs.Design.Renumber
import DesignSpace.Proofs.Estimate.Fresh

namespace DesignSpace

variable {g : RegionId → RegionId} {arrays : List ArrayDecl} {c : Context} {n : Nest}
  {m : CostModel}

/-! ## 1. Contexts -/

theorem ArrayDecl.find?_renumber (arrays : List ArrayDecl) (name : String) :
    (arrays.map (renumber g)).find? (fun a => a.name = name) =
      (arrays.find? fun a => a.name = name).map (renumber g) := List.find?_map

namespace Context

theorem promotions_renumber (c : Context) (arrays : List ArrayDecl) (n : Nest) :
    c.promotions (arrays.map (ArrayDecl.renumber g)) (n.renumber g) =
      (c.promotions arrays n).map (ArrayDecl.renumber g) := by
  unfold promotions
  rw [Nest.loop?_renumber, Nest.accesses_renumber]
  cases n.region.loop? with
  | none => rfl
  | some l =>
      dsimp only
      by_cases ht : l.isTiled = true
      · rw [if_pos ht, if_pos ht, List.filter_map]
        rfl
      · rw [if_neg ht, if_neg ht]
        rfl

/-- **The context below a nest** asks for no number. -/
@[simp] theorem enter_renumber (c : Context) (arrays : List ArrayDecl) (n : Nest) :
    c.enter (arrays.map (ArrayDecl.renumber g)) (n.renumber g) = c.enter arrays n := by
  unfold enter
  rw [Nest.loop?_renumber, promotions_renumber, List.map_map]
  rfl

end Context

theorem Design.context_renumber {d : Design} {id : RegionId}
    (hg : Set.InjOn g {i | i ∈ d.preorder}) (hid : id ∈ d.preorder) :
    (d.renumber g).context (g id) = d.context id := by
  rw [context, above_renumber hg hid, List.foldl_map, context]
  simp [Design.renumber]

/-! ## 2. Blocks and loops -/

namespace Nest

theorem tileFootprint_renumber (n : Nest) (a : ArrayDecl) :
    (n.renumber g).tileFootprint (a.renumber g) = n.tileFootprint a := by
  unfold tileFootprint
  rw [accesses_renumber, ranges_renumber]
  rfl

end Nest

namespace CostModel

theorem demandOn_renumber (m : CostModel) (arrays : List ArrayDecl) (c : Context)
    (issues : List Issue) : m.demandOn (arrays.map (ArrayDecl.renumber g)) c issues =
      m.demandOn arrays c issues := by
  funext name
  unfold demandOn
  rw [ArrayDecl.find?_renumber, Option.map_map]
  rfl

theorem pressure_renumber (m : CostModel) (arrays : List ArrayDecl) (c : Context)
    (issues : List Issue) : m.pressure (arrays.map (ArrayDecl.renumber g)) c issues =
      m.pressure arrays c issues := by
  unfold pressure
  rw [demandOn_renumber]

theorem straightLine_renumber (m : CostModel) (arrays : List ArrayDecl) (c : Context)
    (b : Block) : m.straightLine (arrays.map (ArrayDecl.renumber g)) c b =
      m.straightLine arrays c b := by
  have hissue : m.issueCycles (arrays.map (ArrayDecl.renumber g)) c = m.issueCycles arrays c := by
    funext x
    unfold issueCycles
    rw [ArrayDecl.find?_renumber]
    cases arrays.find? fun a => a.name = x.array <;> rfl
  unfold straightLine
  rw [hissue]

theorem blockMetrics_renumber (m : CostModel) (arrays : List ArrayDecl) (c : Context)
    (b : Block) : m.blockMetrics (arrays.map (ArrayDecl.renumber g)) c b =
      m.blockMetrics arrays c b := by
  unfold blockMetrics
  rw [pressure_renumber, straightLine_renumber]

theorem flatBody_renumber (m : CostModel) (arrays : List ArrayDecl) (c : Context) (iv : String)
    (below : Forest) : m.flatBody (arrays.map (ArrayDecl.renumber g)) c iv (below.renumber g) =
      m.flatBody arrays c iv below := by
  unfold flatBody flatDepth
  simp only [Forest.flatten_renumber, pressure_renumber, straightLine_renumber]

theorem tileBuffers_renumber (c : Context) (arrays : List ArrayDecl) (n : Nest) :
    c.tileBuffers (arrays.map (ArrayDecl.renumber g)) (n.renumber g) =
      c.tileBuffers arrays n := by
  unfold Context.tileBuffers
  simp only [Context.promotions_renumber, List.map_map, Nest.accesses_renumber,
    Function.comp_def, Nest.tileFootprint_renumber]
  rfl

theorem flatLoopMetrics_renumber (m : CostModel) (arrays : List ArrayDecl) (c : Context)
    (n : Nest) : m.flatLoopMetrics (arrays.map (ArrayDecl.renumber g)) c (n.renumber g) =
      m.flatLoopMetrics arrays c n := by
  have hbelow : (n.renumber g).below = n.below.renumber g := rfl
  unfold flatLoopMetrics
  rw [Nest.loop?_renumber, hbelow, tileBuffers_renumber, Context.enter_renumber]
  simp only [flatBody_renumber]

theorem outerLoopMetrics_renumber (arrays : List ArrayDecl) (c : Context) (n : Nest)
    (body : Metrics) :
    outerLoopMetrics (arrays.map (ArrayDecl.renumber g)) c (n.renumber g) body =
      outerLoopMetrics arrays c n body := by
  unfold outerLoopMetrics
  rw [Nest.loop?_renumber, tileBuffers_renumber]

end CostModel

/-! ## 3. Regions -/

namespace Design

variable {d : Design} {id : RegionId}

/-- The arrays that share the lifetime of a region are those that shared it. -/
theorem scopedTo_renumber (hg : Set.InjOn g {i | i ∈ d.preorder})
    (hscopes : ∀ a ∈ d.arrays, d.scopeOf a ∈ d.preorder) (hid : id ∈ d.preorder) :
    (d.renumber g).scopedTo (g id) = (d.scopedTo id).map (ArrayDecl.renumber g) := by
  unfold scopedTo
  rw [renumber, List.filter_map]
  refine congrArg (List.map _) (List.filter_congr fun a ha => ?_)
  have hscope := scopeOf_renumber (g := g) d a
  rw [renumber] at hscope
  simp only [Function.comp_apply, hscope, hg.eq_iff (hscopes a ha) hid]

theorem scopedStorage_renumber (hg : Set.InjOn g {i | i ∈ d.preorder})
    (hscopes : ∀ a ∈ d.arrays, d.scopeOf a ∈ d.preorder) (hid : n.region.id ∈ d.preorder)
    (stages : List Span) :
    (d.renumber g).scopedStorage (n.renumber g) stages = d.scopedStorage n stages := by
  have htouch : ∀ name, touchingStages (n.renumber g).children stages name =
      touchingStages n.children stages name := by
    intro name
    unfold touchingStages
    simp only [Nest.children_renumber, Span.slice, ← List.map_drop, ← List.map_take, List.any_map,
      Function.comp_def, Nest.accesses_renumber]
  have hown : (d.renumber g).scopedTo (n.renumber g).region.id =
      (d.scopedTo n.region.id).map (ArrayDecl.renumber g) := scopedTo_renumber hg hscopes hid
  unfold scopedStorage
  simp only [hown, List.filter_map, List.map_map, htouch, Function.comp_def]
  rfl

end Design

namespace Estimator

variable {d : Design} {e : Estimator} {id : RegionId}

theorem stagesOf_renumber (n : Nest) (parts : List Metrics) :
    stagesOf (n.renumber g) parts = stagesOf n parts := by
  unfold stagesOf
  rw [Nest.stages_renumber]
  rfl

section Renumber

variable (hg : Set.InjOn g {i | i ∈ d.preorder})
  (hscopes : ∀ a ∈ d.arrays, d.scopeOf a ∈ d.preorder)
include hg hscopes

theorem scopeMetrics_renumber (hid : n.region.id ∈ d.preorder) (parts : List Metrics)
    (controllers : Nat) : scopeMetrics (d.renumber g) (n.renumber g) parts controllers =
      scopeMetrics d n parts controllers := by
  unfold scopeMetrics
  rw [stagesOf_renumber]
  simp only [Design.scopedStorage_renumber hg hscopes hid]

/-- **The metrics of a region** from those of its parts ask for no number. -/
theorem combine_renumber (hid : n.region.id ∈ d.preorder) (parts : List Metrics) :
    e.combine (d.renumber g) c (n.renumber g) parts = e.combine d c n parts := by
  have hkind : (n.renumber g).region.kind = n.region.kind := rfl
  have harrays : (d.renumber g).arrays = d.arrays.map (ArrayDecl.renumber g) := rfl
  unfold combine
  rw [hkind, harrays, Nest.isInnermostLoop_renumber, scopeMetrics_renumber hg hscopes hid,
    scopeMetrics_renumber hg hscopes hid, stagesOf_renumber]
  simp only [CostModel.blockMetrics_renumber, CostModel.flatLoopMetrics_renumber,
    CostModel.outerLoopMetrics_renumber]

theorem fresh_renumber {f : Forest} (hf : ∀ i ∈ f.ids, i ∈ d.preorder) :
    e.fresh (d.renumber g) c (f.renumber g) = e.fresh d c f := by
  induction f generalizing c with
  | nil => rfl
  | cons r below after ihb iha =>
      rw [Forest.ids_cons, List.forall_mem_cons, List.forall_mem_append] at hf
      obtain ⟨hr, hb, ha⟩ := hf
      have henter := c.enter_renumber (g := g) d.arrays ⟨r, below⟩
      have hcombine := fun parts =>
        combine_renumber (c := c) (e := e) (n := ⟨r, below⟩) hg hscopes hr parts
      rw [Forest.renumber_cons, fresh, fresh, iha ha, ← hcombine, ← henter, ← ihb hb]
      rfl

theorem estimate_renumber (hid : n.region.id ∈ d.preorder)
    (hn : ∀ i ∈ n.below.ids, i ∈ d.preorder) :
    e.estimate (d.renumber g) c (n.renumber g) = e.estimate d c n := by
  have hparts : e.fresh (d.renumber g) (c.enter (d.renumber g).arrays (n.renumber g))
      (n.renumber g).below = e.fresh d (c.enter d.arrays n) n.below := by
    show e.fresh (d.renumber g) (c.enter (d.arrays.map (ArrayDecl.renumber g)) (n.renumber g))
      (n.below.renumber g) = _
    rw [Context.enter_renumber, fresh_renumber hg hscopes hn]
  unfold estimate
  rw [hparts, combine_renumber hg hscopes hid]

/-- **The estimate of a region** under its new number is the one that it had. -/
theorem estimate?_renumber (hid : id ∈ d.preorder) :
    e.estimate? (d.renumber g) (g id) = e.estimate? d id := by
  rw [estimate?, Design.find?_renumber hg hid, Design.context_renumber hg hid, Option.map_map,
    estimate?]
  cases hn : d.find? id with
  | none => rfl
  | some n =>
      obtain ⟨hmem, rfl⟩ := Forest.find?_mem hn
      exact congrArg some (estimate_renumber hg hscopes hid fun i hi =>
        Forest.mem_ids_of_mem_below hmem hi)

end Renumber

end Estimator

/-! ## 4. Reports -/

/-- A row of a region with another number. -/
def ReportRow.renumber (g : RegionId → RegionId) (row : ReportRow) : ReportRow :=
  { row with id := g row.id }

/-- A row without its label, which names the region by its number. -/
def ReportRow.unlabelled (row : ReportRow) : ReportRow := { row with label := "" }

namespace Annotated

variable {a b : Annotated}

/-- Where all regions have estimates, all of them have rows. -/
theorem ids_report (h : ∀ i ∈ a.design.preorder, a.table.get? i ≠ none) :
    a.report.rows.map ReportRow.id = a.design.preorder := by
  have hrow : ∀ n ∈ a.design.forest.nests,
      ((a.table.get? n.region.id).map fun _ => n.region.id) = some n.region.id := by
    intro n hn
    obtain ⟨x, hx⟩ := Option.ne_none_iff_exists'.mp (h _ (Forest.mem_ids_of_mem_nests hn))
    rw [hx]
    rfl
  have hids : a.design.preorder = a.design.forest.nests.map fun n => n.region.id := by
    rw [Design.preorder, Forest.ids, Forest.regions, List.map_map]
    rfl
  rw [report, List.map_filterMap, hids, ← List.filterMap_eq_map]
  refine List.filterMap_congr fun n hn => ?_
  rw [Option.map_map]
  exact hrow n hn

/-- **Rows under other numbers** differ in numbers and labels only, if the estimates are the
    same. -/
theorem rows_renumber (hg : Set.InjOn g {i | i ∈ a.design.preorder})
    (hdesign : b.design = a.design.renumber g)
    (h : ∀ i ∈ a.design.preorder, b.table.get? (g i) = a.table.get? i) :
    b.report.rows.map ReportRow.unlabelled =
      a.report.rows.map fun row => (row.renumber g).unlabelled := by
  unfold report
  rw [hdesign, Design.forest_renumber, Forest.nests_renumber, List.filterMap_map,
    List.map_filterMap, List.map_filterMap]
  refine List.filterMap_congr fun n hn => ?_
  have hid := Forest.mem_ids_of_mem_nests hn
  have hget : b.table.get? (n.renumber g).region.id = a.table.get? n.region.id := h _ hid
  have hdepth : (a.design.renumber g).depth (n.renumber g).region.id =
      a.design.depth n.region.id := Design.depth_renumber hg hid
  simp only [Function.comp_apply, hget, Option.map_map, hdepth, Nest.opCount_renumber]
  rfl

end Annotated

/-! ## 5. Listings -/

namespace Estimator

/-- **Estimates depend on the tree alone.** Take a listing that is accepted, give its regions other
    numbers, different ones for different regions, and put its records in any order in which the
    parts of each region stand as they stood. The new listing is accepted too, and under every
    estimator a full run of the one and of the other succeeds. Each region has the same estimate
    under its new number as under the old one. The reports tell of all regions in the same order,
    and but for labels and numbers they say the same of each. -/
theorem run_renumber {l l' : Listing} {d : Design} (hd : l.design = .ok d)
    (hg : Set.InjOn g {i | i ∈ l.records.map Record.id})
    (hl : Listing.Reordered (l.renumber g) l') (e : Estimator) :
    ∃ d' summary a summary' a', l'.design = .ok d' ∧
      e.run d = .ok (summary, a) ∧ e.run d' = .ok (summary', a') ∧
      (∀ r ∈ l.records, ∃ x, a.table.get? r.id = some x ∧ a'.table.get? (g r.id) = some x) ∧
      (a.report.rows.map ReportRow.id).Perm (l.records.map Record.id) ∧
      a'.report.rows.map ReportRow.unlabelled =
        a.report.rows.map fun row => (row.renumber g).unlabelled := by
  have hd' := Listing.design_renumber hg hd hl
  obtain ⟨htree, hc⟩ := Listing.tree_of_design hd
  have hids := Listing.perm_preorder htree
  have hg : Set.InjOn g {i | i ∈ d.preorder} := hg.mono fun _ hi => hids.mem_iff.mp hi
  have hscopes : ∀ x ∈ d.arrays, d.scopeOf x ∈ d.preorder := by
    intro x hx
    obtain ⟨n, hn, -⟩ := Design.scope_of_check hc hx
    obtain ⟨hmem, hid⟩ := Forest.find?_mem hn
    exact hid ▸ Forest.mem_ids_of_mem_nests hmem
  obtain ⟨summary, a, hrun, -, hfull, hdesign⟩ :=
    exists_run e (Listing.nodup_of_design hd) hc .empty
  obtain ⟨summary', a', hrun', -, hfull', hdesign'⟩ :=
    exists_run e (Listing.nodup_of_design hd') (Listing.tree_of_design hd').2 .empty
  have hsame : ∀ i ∈ d.preorder, a'.table.get? (g i) = a.table.get? i := by
    intro i hi
    rw [hfull'.full, hdesign', hfull.full, hdesign, estimate?_renumber hg hscopes hi]
  have hentry : ∀ i ∈ d.preorder, a.table.get? i ≠ none := by
    intro i hi
    rw [hfull.full, hdesign, ← Option.isSome_iff_ne_none, estimate?_isSome_iff]
    exact hi
  refine ⟨_, summary, a, summary', a', hd', hrun, hrun', fun r hr => ?_, ?_, ?_⟩
  · have hr := hids.mem_iff.mpr (List.mem_map_of_mem hr)
    obtain ⟨x, hx⟩ := Option.ne_none_iff_exists'.mp (hentry r.id hr)
    exact ⟨x, hx, (hsame r.id hr).trans hx⟩
  · rwa [Annotated.ids_report (hdesign ▸ hentry), hdesign]
  · exact Annotated.rows_renumber (hdesign ▸ hg) (hdesign'.trans (hdesign ▸ rfl)) (hdesign ▸ hsame)

end Estimator

namespace Smoothing

/-- The function of the two loops, with an array that names it as its scope. -/
def owned : Listing :=
  { listing with
    arrays := [{ name := "x", shape := [16], storage := .external },
      { name := "y", shape := [16], scope := some 0 }] }

/-- The same function, with numbers that go down, and its blocks listed first. -/
def relisted : Listing where
  name := "smoothing"
  records :=
    [⟨⟨5, .block totalBody, none⟩, some 6⟩, ⟨⟨7, .block doubleBody, none⟩, some 8⟩,
     ⟨⟨8, .loop double, none⟩, some 9⟩, ⟨⟨9, .func { name := "smoothing" }, none⟩, none⟩,
     ⟨⟨6, .loop total, none⟩, some 9⟩]
  arrays := [{ name := "x", shape := [16], storage := .external },
    { name := "y", shape := [16], scope := some 9 }]

theorem run_renumber_relisted :
    owned.design = .ok { design with arrays := owned.arrays } ∧
    Set.InjOn (fun i => 9 - i) {i | i ∈ owned.records.map Record.id} ∧
    Listing.Reordered (owned.renumber fun i => 9 - i) relisted ∧
    ∃ d' summary a summary' a', relisted.design = .ok d' ∧
      (Estimator.new none {}).run ({ design with arrays := owned.arrays } : Design) =
        .ok (summary, a) ∧
      (Estimator.new none {}).run d' = .ok (summary', a') ∧
      (∀ r ∈ owned.records, ∃ x,
        a.table.get? r.id = some x ∧ a'.table.get? (9 - r.id) = some x) ∧
      (a.report.rows.map ReportRow.id).Perm [0, 1, 2, 3, 4] ∧
      a'.report.rows.map ReportRow.unlabelled =
        a.report.rows.map fun row => (row.renumber fun i => 9 - i).unlabelled := by
  have hd : owned.design = .ok { design with arrays := owned.arrays } := by decide +kernel
  have hg : Set.InjOn (fun i => 9 - i) {i | i ∈ owned.records.map Record.id} :=
    List.inj_on_of_nodup_map (by decide)
  have hl : Listing.Reordered (owned.renumber fun i => 9 - i) relisted :=
    ⟨rfl, rfl, by decide +kernel, by decide +kernel⟩
  exact ⟨hd, hg, hl, Estimator.run_renumber hd hg hl _⟩

end Smoothing

end DesignSpace
