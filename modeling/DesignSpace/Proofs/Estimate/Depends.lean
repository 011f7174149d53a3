/-
  Subject:   WHAT AN ESTIMATE DEPENDS ON. Two designs give a region the same estimate if they agree
             on what its cost is made of.

  * `Estimator.estimate_congr`: of a design only the arrays and the number of the root count;
  * `Region.gate`, `Context.enter_congr`: what a context takes from a region that is entered;
  * `Context.enter_of_bare`, `Context.transfer_of_bare`: neither this nor the time of the transfers
    of tiles depends on banks;
  * `Estimator.estimate?_map`: a change of directives that spares the nest of a region and the
    gates around it leaves the estimate of the region;
  * `Estimator.estimate?_updateArray`: so does a change of banks of an array that the nest neither
    accesses nor is the scope of;
  * `Annotated.UpToDate.invalidate`: the entries of a table that can stay.
-/
import DesignSpace.Proofs.Forest.Bare
import DesignSpace.Proofs.Estimate.Fresh

namespace DesignSpace

variable {e : Estimator} {d d' : Design} {c : Context} {n m : Nest} {id : RegionId}

/-! ## 1. Arrays and the root -/

theorem Design.scopedStorage_congr (h : d.scopedTo n.region.id = d'.scopedTo n.region.id)
    (spans : List Span) : d.scopedStorage n spans = d'.scopedStorage n spans := by
  unfold scopedStorage
  rw [h]

namespace Estimator

theorem scopeMetrics_congr (h : d.scopedTo n.region.id = d'.scopedTo n.region.id)
    (parts : List Metrics) (controllers : Nat) :
    scopeMetrics d n parts controllers = scopeMetrics d' n parts controllers := by
  unfold scopeMetrics
  simp only [Design.scopedStorage_congr h]

theorem combine_congr (ha : d.arrays = d'.arrays) (hr : d.root.id = d'.root.id)
    (parts : List Metrics) : e.combine d c n parts = e.combine d' c n parts := by
  have hscope : d.scopeOf = d'.scopeOf := by
    funext a
    rw [Design.scopeOf, Design.scopeOf, hr]
  have hs : d.scopedTo n.region.id = d'.scopedTo n.region.id := by
    rw [Design.scopedTo, Design.scopedTo, hscope, ha]
  unfold combine
  rw [ha, scopeMetrics_congr hs, scopeMetrics_congr hs]

theorem fresh_congr (ha : d.arrays = d'.arrays) (hr : d.root.id = d'.root.id) (f : Forest) :
    e.fresh d c f = e.fresh d' c f := by
  induction f generalizing c with
  | nil => rfl
  | cons r below after ihb iha =>
      rw [fresh, fresh, ihb, iha, combine_congr ha hr, ha]

/-- Of the design around a nest, its estimate depends on the arrays and the number of the root. -/
theorem estimate_congr (ha : d.arrays = d'.arrays) (hr : d.root.id = d'.root.id) :
    e.estimate d c n = e.estimate d' c n := by
  unfold estimate
  rw [fresh_congr ha hr, combine_congr ha hr, ha]

end Estimator

/-! ## 2. Gates -/

/-- What a context takes from a region that is entered: the variable of a loop, its unroll factor,
    and whether it is cut into tiles. -/
def Region.gate (r : Region) : Option (String × Nat × Bool) :=
  r.loop?.map fun l => (l.iv, l.directives.unroll, l.isTiled)

namespace Context

variable {arrays : List ArrayDecl}

theorem promotions_congr (hg : n.region.gate = m.region.gate) (ha : n.accesses = m.accesses) :
    c.promotions arrays n = c.promotions arrays m := by
  unfold Region.gate at hg
  unfold promotions
  cases hn : n.region.loop? with
  | none =>
      cases hm : m.region.loop? with
      | none => rfl
      | some k =>
          rw [hn, hm] at hg
          cases hg
  | some l =>
      cases hm : m.region.loop? with
      | none =>
          rw [hn, hm] at hg
          cases hg
      | some k =>
          rw [hn, hm] at hg
          have ht : l.isTiled = k.isTiled := congrArg (fun e => e.2.2) (Option.some.inj hg)
          show (if l.isTiled then _ else _) = if k.isTiled then _ else _
          rw [ht, ha]

/-- **The context below a nest** depends on the gate of its region and on its accesses. -/
theorem enter_congr (hg : n.region.gate = m.region.gate) (ha : n.accesses = m.accesses) :
    c.enter arrays n = c.enter arrays m := by
  have hp := @promotions_congr c n m arrays hg ha
  unfold Region.gate at hg
  unfold enter
  rw [hp]
  cases hn : n.region.loop? with
  | none =>
      cases hm : m.region.loop? with
      | none => rfl
      | some k =>
          rw [hn, hm] at hg
          cases hg
  | some l =>
      cases hm : m.region.loop? with
      | none =>
          rw [hn, hm] at hg
          cases hg
      | some k =>
          rw [hn, hm] at hg
          have hkey := Option.some.inj hg
          have hiv : l.iv = k.iv := congrArg (fun e => e.1) hkey
          have hu : l.directives.unroll = k.directives.unroll := congrArg (fun e => e.2.1) hkey
          show withFactor _ l.iv l.directives.unroll = withFactor _ k.iv k.directives.unroll
          rw [hiv, hu]

end Context

/-! ## 3. Directives elsewhere -/

theorem Context.foldl_enter_map {g : Region → Region} {arrays : List ArrayDecl} (hg : Directing g)
    {path : List Nest} (hgate : ∀ n ∈ path, (g n.region).gate = n.region.gate) :
    (path.map (Nest.map g)).foldl (fun c n => c.enter arrays n) c =
      path.foldl (fun c n => c.enter arrays n) c := by
  induction path generalizing c with
  | nil => rfl
  | cons n rest ih =>
      have hn : c.enter arrays (n.map g) = c.enter arrays n :=
        enter_congr (hgate n List.mem_cons_self) (Nest.accesses_map hg n)
      rw [List.map_cons, List.foldl_cons, List.foldl_cons, hn]
      exact ih fun m hm => hgate m (List.mem_cons_of_mem _ hm)

theorem Nest.map_eq_self {g : Region → Region} (h : ∀ r ∈ n.regions, g r = r) : n.map g = n := by
  have hf : n.toForest.map g = n.toForest := by
    rw [Forest.map_congr h]
    exact Forest.map_id _
  have hcons : Forest.cons (g n.region) (n.below.map g) .nil = .cons n.region n.below .nil := hf
  injection hcons with hr hb
  rw [Nest.map, hr, hb]

/-- **Directives elsewhere**: a change of directives that spares the nest of a region and the gates
    around it leaves its estimate as it is. -/
theorem Estimator.estimate?_map {g : Region → Region} (hg : Directing g)
    (hf : d'.forest = d.forest.map g) (ha : d'.arrays = d.arrays) (hr : d'.root.id = d.root.id)
    (hnest : ∀ n, d.find? id = some n → ∀ r ∈ n.regions, g r = r)
    (hgate : ∀ n ∈ d.above id, (g n.region).gate = n.region.gate) :
    e.estimate? d' id = e.estimate? d id := by
  have hfind : d'.find? id = d.find? id := by
    rw [Design.find?, hf, Forest.find?_map hg.id_eq, ← Design.find?]
    cases hn : d.find? id with
    | none => rfl
    | some n => exact congrArg some (Nest.map_eq_self (hnest n hn))
  have hcontext : d'.context id = d.context id := by
    have habove : d'.above id = (d.above id).map (Nest.map g) := by
      rw [Design.above, hf, Forest.above_map hg.id_eq, Design.above]
      cases Forest.above id d.forest <;> rfl
    rw [Design.context, Design.context, habove, ha, Context.foldl_enter_map hg hgate]
  rw [estimate?, estimate?, hfind, hcontext]
  exact congrArg (fun k => (d.find? id).map k) (funext fun n => estimate_congr ha hr)

/-! ## 4. Banks -/

section Arrays

variable {arrays arrays' : List ArrayDecl}
  (h : arrays'.map ArrayDecl.bare = arrays.map ArrayDecl.bare)
include h

/-- What does not see banks is the same of the arrays that are picked with no look at banks. -/
theorem ArrayDecl.map_filter_of_bare {α : Type} {f : ArrayDecl → α} (hf : ∀ a, f a.bare = f a)
    {p : ArrayDecl → Bool} (hp : ∀ a, p a.bare = p a) :
    (arrays'.filter p).map f = (arrays.filter p).map f := by
  have hbare : ∀ as : List ArrayDecl,
      (as.filter p).map f = ((as.map ArrayDecl.bare).filter p).map f := fun as => by
    rw [List.filter_map, List.map_map]
    exact (congrArg₂ (fun g q => (as.filter q).map g) (funext hf) (funext hp)).symm
  rw [hbare arrays', hbare arrays, h]

namespace CostModel

theorem issueCycles_of_bare (m : CostModel) (a : Access) :
    m.issueCycles arrays' c a = m.issueCycles arrays c a := by
  have hcycles : ∀ as : List ArrayDecl, m.issueCycles as c a = m.accessCycles a.kind
      (((as.find? fun x => x.name = a.array).map ArrayDecl.bare).elim true c.isOnChip) := by
    intro as
    unfold issueCycles
    cases as.find? fun x => x.name = a.array <;> rfl
  rw [hcycles, hcycles, ArrayDecl.find?_of_bare h]

/-- Apart from waiting for memory, a block takes the same cycles with any banks. -/
theorem straightLine_of_bare (m : CostModel) (b : Block) :
    m.straightLine arrays' c b = m.straightLine arrays c b := by
  rw [straightLine, straightLine, funext (issueCycles_of_bare h m)]

end CostModel

namespace Context

/-- What an array is copied for is no matter of its banks. -/
theorem map_promotions_of_bare {α : Type} {f : ArrayDecl → α} (hf : ∀ a, f a.bare = f a)
    (n : Nest) : (c.promotions arrays' n).map f = (c.promotions arrays n).map f := by
  unfold promotions
  cases n.region.loop? with
  | none => rfl
  | some l =>
      cases ht : l.isTiled with
      | false => simp only [ht, Bool.false_eq_true, if_false]
      | true =>
          simp only [ht, if_true]
          exact ArrayDecl.map_filter_of_bare h hf fun _ => rfl

theorem enter_of_bare (n : Nest) : c.enter arrays' n = c.enter arrays n := by
  rw [enter, enter, map_promotions_of_bare h fun _ => rfl]

/-- Transfers for tiles do not depend on banks. -/
theorem transfer_of_bare (n : Nest) :
    (c.tileBuffers arrays' n).transfer = (c.tileBuffers arrays n).transfer := by
  unfold tileBuffers
  simp only [List.map_map]
  exact congrArg Count.sum (map_promotions_of_bare h (fun _ => rfl) n)

end Context

end Arrays

/-! ## 5. Banks elsewhere -/

namespace Design

/-- A change of arrays that touches nothing but the number of banks. -/
def Banking (change : ArrayDecl → ArrayDecl) : Prop :=
  ∀ a, ∃ k, change a = { a with partition := k }

variable {change : ArrayDecl → ArrayDecl} {name : String} {arrays : List ArrayDecl}

namespace Banking

theorem name_eq (h : Banking change) (a : ArrayDecl) : (change a).name = a.name := by
  obtain ⟨k, hk⟩ := h a
  rw [hk]

theorem storage_eq (h : Banking change) (a : ArrayDecl) : (change a).storage = a.storage := by
  obtain ⟨k, hk⟩ := h a
  rw [hk]

theorem scopeOf_eq (h : Banking change) (d : Design) (a : ArrayDecl) :
    d.scopeOf (change a) = d.scopeOf a := by
  obtain ⟨k, hk⟩ := h a
  rw [hk]
  rfl

end Banking

theorem find?_update (h : Banking change) (x : String) :
    (updateArray.update name change arrays).find? (fun a => a.name = x) =
      if x = name then (arrays.find? fun a => a.name = x).map change
      else arrays.find? fun a => a.name = x := by
  induction arrays with
  | nil => simp [updateArray.update]
  | cons a as ih =>
      unfold updateArray.update
      by_cases ha : a.name = name
      · rw [if_pos ha, List.find?_cons, List.find?_cons, h.name_eq]
        by_cases hx : x = name
        · simp [ha, hx]
        · simp [ha, hx, Ne.symm hx]
      · rw [if_neg ha, List.find?_cons, List.find?_cons, ih]
        by_cases hx : a.name = x
        · subst hx
          simp [ha]
        · simp [hx]

/-- A property that does not hold of the array that is changed sees the same arrays. -/
theorem filter_update {p : ArrayDecl → Bool}
    (hp : ∀ a, arrays.find? (fun x => x.name = name) = some a → p a = false)
    (hc : ∀ a, p (change a) = p a) :
    (updateArray.update name change arrays).filter p = arrays.filter p := by
  induction arrays with
  | nil => rfl
  | cons a as ih =>
      unfold updateArray.update
      by_cases ha : a.name = name
      · have hpa : p a = false := hp a (by rw [List.find?_cons]; simp [ha])
        rw [if_pos ha, List.filter_cons, List.filter_cons, hc, hpa]
        rfl
      · have hrest : ∀ x, as.find? (fun y => y.name = name) = some x → p x = false := fun x hx =>
          hp x (by rw [List.find?_cons]; simp [ha, hx])
        rw [if_neg ha, List.filter_cons, List.filter_cons, ih hrest]

/-- What does not see the change is the same of all arrays. -/
theorem map_update {α : Type} {f : ArrayDecl → α} (hf : ∀ a, f (change a) = f a)
    (arrays : List ArrayDecl) :
    (updateArray.update name change arrays).map f = arrays.map f := by
  induction arrays with
  | nil => rfl
  | cons a as ih =>
      unfold updateArray.update
      by_cases ha : a.name = name
      · rw [if_pos ha, List.map_cons, List.map_cons, hf]
      · rw [if_neg ha, List.map_cons, List.map_cons, ih]

theorem Banking.map_bare (h : Banking change) (name : String) (arrays : List ArrayDecl) :
    (updateArray.update name change arrays).map ArrayDecl.bare = arrays.map ArrayDecl.bare :=
  map_update (fun a => by obtain ⟨k, hk⟩ := h a; rw [hk]; rfl) arrays

end Design

theorem Forest.accesses_cons (r : Region) (below after : Forest) :
    (Forest.cons r below after).accesses = r.accesses ++ (below.accesses ++ after.accesses) := by
  rw [accesses, regions_cons, List.flatMap_cons, List.flatMap_append]
  rfl

theorem Nest.accesses_eq (n : Nest) : n.accesses = n.region.accesses ++ n.below.accesses := by
  rw [accesses, toForest, Forest.accesses_cons]
  exact congrArg (n.region.accesses ++ ·) (List.append_nil _)

/-- The accesses of a flat body are accesses of the forest. -/
theorem Forest.mem_accesses_of_flatten {f : Forest} {chain : Nat} {b : FlatBlock}
    (hb : b ∈ f.flatten c chain) {a : Access} (ha : a ∈ b.body.accesses) : a ∈ f.accesses := by
  induction f generalizing c chain with
  | nil => exact absurd hb List.not_mem_nil
  | cons r below after ihb iha =>
      rw [accesses_cons, List.mem_append, List.mem_append]
      rw [flatten, List.mem_append] at hb
      rcases hb with hb | hb
      · cases hk : r.kind with
        | block body =>
            rw [hk] at hb
            obtain rfl := List.mem_singleton.mp hb
            refine .inl ?_
            rw [Region.accesses, hk]
            exact ha
        | loop l =>
            rw [hk] at hb
            exact .inr (.inl (ihb hb))
        | func f =>
            rw [hk] at hb
            exact .inr (.inl (ihb hb))
        | dataflow =>
            rw [hk] at hb
            exact .inr (.inl (ihb hb))
      · exact .inr (.inr (iha hb))

section Banks

variable {change : ArrayDecl → ArrayDecl} {name : String} {arrays : List ArrayDecl}
  (hb : Design.Banking change)
include hb

namespace CostModel

theorem pressure_update (m : CostModel) {issues : List Issue}
    (hi : ∀ i ∈ issues, i.array ≠ name) :
    m.pressure (Design.updateArray.update name change arrays) c issues =
      m.pressure arrays c issues := by
  have hd : (issues.map Issue.array).eraseDups.filterMap
        (m.demandOn (Design.updateArray.update name change arrays) c issues) =
      (issues.map Issue.array).eraseDups.filterMap (m.demandOn arrays c issues) := by
    refine List.filterMap_congr fun x hx => ?_
    obtain ⟨i, him, rfl⟩ := List.mem_map.mp (List.mem_eraseDups.mp hx)
    rw [demandOn, demandOn, Design.find?_update hb, if_neg (hi i him)]
  rw [pressure, pressure, hd]

theorem blockMetrics_update (m : CostModel) {b : Block} (ha : ∀ a ∈ b.accesses, a.array ≠ name) :
    m.blockMetrics (Design.updateArray.update name change arrays) c b =
      m.blockMetrics arrays c b := by
  have hi : ∀ i ∈ b.accesses.map (Issue.ofAccess c), i.array ≠ name := by
    intro i hi
    obtain ⟨a, hab, rfl⟩ := List.mem_map.mp hi
    exact ha a hab
  rw [blockMetrics, blockMetrics, pressure_update hb m hi, straightLine_of_bare (hb.map_bare _ _)]

theorem flatBody_update (m : CostModel) (iv : String) {below : Forest}
    (ha : ∀ a ∈ below.accesses, a.array ≠ name) :
    m.flatBody (Design.updateArray.update name change arrays) c iv below =
      m.flatBody arrays c iv below := by
  have hi : ∀ i ∈ (below.flatten c 1).flatMap
      (fun b => b.body.accesses.map (Issue.ofAccess b.context)), i.array ≠ name := by
    intro i hi
    obtain ⟨b, hbm, hib⟩ := List.mem_flatMap.mp hi
    obtain ⟨a, hab, rfl⟩ := List.mem_map.mp hib
    exact ha a (Forest.mem_accesses_of_flatten hbm hab)
  have hs : m.straightLine (Design.updateArray.update name change arrays) c =
      m.straightLine arrays c := funext (straightLine_of_bare (hb.map_bare _ _) m)
  rw [flatBody, flatBody, pressure_update hb m hi, flatDepth, flatDepth, hs]

end CostModel

namespace Context

theorem promotions_update (ha : ∀ a ∈ n.accesses, a.array ≠ name) :
    c.promotions (Design.updateArray.update name change arrays) n = c.promotions arrays n := by
  unfold promotions
  cases n.region.loop? with
  | none => rfl
  | some l =>
      by_cases ht : l.isTiled
      · show (if l.isTiled then _ else _) = if l.isTiled then _ else _
        rw [if_pos ht, if_pos ht]
        refine Design.filter_update (fun a hfind => ?_) fun a => by
          rw [hb.storage_eq, hb.name_eq]
        -- no access of the nest names the array that is changed
        have hname : a.name = name := by simpa using List.find?_some hfind
        have hno : (n.accesses.map Access.array).contains a.name = false := by
          rw [hname, Bool.eq_false_iff, ne_eq, List.contains_iff_mem]
          intro hmem
          obtain ⟨x, hx, hxn⟩ := List.mem_map.mp hmem
          exact ha x hx hxn
        rw [hno, Bool.and_false, Bool.false_and]
      · show (if l.isTiled then _ else _) = if l.isTiled then _ else _
        rw [if_neg ht, if_neg ht]

theorem enter_update (n : Nest) :
    c.enter (Design.updateArray.update name change arrays) n = c.enter arrays n :=
  enter_of_bare (hb.map_bare _ _) n

theorem tileBuffers_update (ha : ∀ a ∈ n.accesses, a.array ≠ name) :
    c.tileBuffers (Design.updateArray.update name change arrays) n = c.tileBuffers arrays n := by
  rw [tileBuffers, tileBuffers, promotions_update hb ha]

end Context

end Banks

section Banks

variable {change : ArrayDecl → ArrayDecl} {name : String}

theorem Design.scopedTo_updateArray (hb : Banking change)
    (hs : ∀ a, d.array? name = some a → d.scopeOf a ≠ id) :
    (d.updateArray name change).scopedTo id = d.scopedTo id := by
  have hscope : (d.updateArray name change).scopeOf = d.scopeOf := rfl
  rw [scopedTo, hscope]
  refine filter_update (fun a ha => ?_) fun a => by rw [hb.scopeOf_eq]
  exact decide_eq_false (hs a ha)

namespace Estimator

theorem combine_updateArray (hb : Design.Banking change) (ha : ∀ a ∈ n.accesses, a.array ≠ name)
    (hs : ∀ a, d.array? name = some a → d.scopeOf a ≠ n.region.id) (parts : List Metrics) :
    e.combine (d.updateArray name change) c n parts = e.combine d c n parts := by
  have harr : (d.updateArray name change).arrays =
      Design.updateArray.update name change d.arrays := rfl
  have hsc : (d.updateArray name change).scopedTo n.region.id = d.scopedTo n.region.id :=
    Design.scopedTo_updateArray hb hs
  have hbelow : ∀ a ∈ n.below.accesses, a.array ≠ name := fun a hab =>
    ha a (by rw [Nest.accesses_eq]; exact List.mem_append_right _ hab)
  unfold combine
  cases hk : n.region.kind with
  | block b =>
      have hbl : ∀ a ∈ b.accesses, a.array ≠ name := by
        intro a hab
        refine ha a ?_
        rw [Nest.accesses_eq, Region.accesses, hk]
        exact List.mem_append_left _ hab
      exact CostModel.blockMetrics_update hb e.model hbl
  | loop l =>
      have hflat : e.model.flatLoopMetrics (d.updateArray name change).arrays c n =
          e.model.flatLoopMetrics d.arrays c n := by
        rw [harr]
        unfold CostModel.flatLoopMetrics
        simp only [Context.enter_update hb, Context.tileBuffers_update hb ha,
          CostModel.flatBody_update hb e.model _ hbelow]
      have houter : ∀ m, CostModel.outerLoopMetrics (d.updateArray name change).arrays c n m =
          CostModel.outerLoopMetrics d.arrays c n m := by
        intro m
        rw [harr]
        unfold CostModel.outerLoopMetrics
        simp only [Context.tileBuffers_update hb ha]
      show (if _ then _ else _) = if _ then _ else _
      rw [hflat, houter]
  | func f => exact scopeMetrics_congr hsc parts 1
  | dataflow => exact scopeMetrics_congr hsc parts 0

theorem fresh_updateArray (hb : Design.Banking change) {f : Forest}
    (ha : ∀ a ∈ f.accesses, a.array ≠ name)
    (hs : ∀ a, d.array? name = some a → d.scopeOf a ∉ f.ids) :
    e.fresh (d.updateArray name change) c f = e.fresh d c f := by
  induction f generalizing c with
  | nil => rfl
  | cons r below after ihb iha =>
      rw [Forest.accesses_cons] at ha
      rw [Forest.ids_cons] at hs
      have haccess : ∀ a ∈ (Nest.mk r below).accesses, a.array ≠ name := by
        intro a h
        rw [Nest.accesses_eq] at h
        rcases List.mem_append.mp h with h | h
        · exact ha a (List.mem_append_left _ h)
        · exact ha a (List.mem_append_right _ (List.mem_append_left _ h))
      have hbelow : e.fresh (d.updateArray name change) (c.enter d.arrays ⟨r, below⟩) below =
          e.fresh d (c.enter d.arrays ⟨r, below⟩) below :=
        ihb (fun a h => ha a (List.mem_append_right _ (List.mem_append_left _ h)))
          fun a h hm => hs a h (List.mem_cons_of_mem _ (List.mem_append_left _ hm))
      have hafter : e.fresh (d.updateArray name change) c after = e.fresh d c after :=
        iha (fun a h => ha a (List.mem_append_right _ (List.mem_append_right _ h)))
          fun a h hm => hs a h (List.mem_cons_of_mem _ (List.mem_append_right _ hm))
      have henter : c.enter (d.updateArray name change).arrays ⟨r, below⟩ =
          c.enter d.arrays ⟨r, below⟩ := Context.enter_update hb _
      rw [fresh, fresh, henter, hbelow, hafter, combine_updateArray hb haccess]
      intro a h heq
      exact hs a h (List.mem_cons.mpr (.inl heq))

/-- **Banks elsewhere**: a change of the banks of an array leaves the estimate of a region as it
    is, where the nest of the region neither accesses the array nor holds the scope of it. -/
theorem estimate?_updateArray (hb : Design.Banking change)
    (ha : ∀ n, d.find? id = some n → ∀ a ∈ n.accesses, a.array ≠ name)
    (hs : ∀ n, d.find? id = some n → ∀ a, d.array? name = some a → d.scopeOf a ∉ n.ids) :
    e.estimate? (d.updateArray name change) id = e.estimate? d id := by
  have henter : (fun (c : Context) n => c.enter (d.updateArray name change).arrays n) =
      fun c n => c.enter d.arrays n := funext fun c => funext fun n => Context.enter_update hb n
  have hcontext : (d.updateArray name change).context id = d.context id := by
    rw [Design.context, henter]
    rfl
  rw [estimate?, estimate?, hcontext]
  show (d.find? id).map _ = _
  cases hn : d.find? id with
  | none => rfl
  | some n =>
      -- the nest is the one region of a forest of its own
      have hf : e.fresh (d.updateArray name change) (d.context id) n.toForest =
          e.fresh d (d.context id) n.toForest := fresh_updateArray hb (ha n hn) (hs n hn)
      have hm := (List.cons.inj hf).1
      rw [Option.map_some, Option.map_some]
      unfold estimate
      exact congrArg (fun m => some (Estimate.mk m (e.violations m))) hm

end Estimator

end Banks

/-! ## 6. Tables -/

/-- **Entries that are dropped together**: if with a region all around it are dropped, and another
    design gives all other regions the same estimates, what is left of a table is up to date for
    that design. -/
theorem Annotated.UpToDate.invalidate {t : Table} {ids : List RegionId} (h : UpToDate e ⟨d, t⟩)
    (hbare : d'.forest.bare = d.forest.bare)
    (hkept : ∀ id, id ∉ ids → e.estimate? d' id = e.estimate? d id)
    (hclosed : ∀ id ∈ ids, ∀ j ∈ d.ancestors id, j ∈ ids) :
    UpToDate e ⟨d', t.invalidate ids⟩ where
  distinct := by
    show d'.preorder.Nodup
    rw [Design.preorder_of_bare hbare]
    exact h.distinct
  ascending := Table.ascending_invalidate h.ascending _
  right id m hm := by
    have hget : (t.invalidate ids).get? id = some m := hm
    rw [Table.get?_invalidate] at hget
    by_cases hid : id ∈ ids
    · rw [if_pos hid] at hget
      cases hget
    · rw [if_neg hid] at hget
      exact (hkept id hid).trans (h.right id m hget)
  closed id hid j hj := by
    have hget : (t.invalidate ids).get? id = none := hid
    have hanc : j ∈ d.ancestors id := by
      rw [← Design.ancestors_of_bare hbare]
      exact hj
    show (t.invalidate ids).get? j = none
    rw [Table.get?_invalidate] at hget ⊢
    by_cases hmem : id ∈ ids
    · rw [if_pos (hclosed id hmem j hanc)]
    · rw [if_neg hmem] at hget
      have hnone : t.get? j = none := h.closed id hget j hanc
      rw [hnone]
      exact ite_self none

end DesignSpace
