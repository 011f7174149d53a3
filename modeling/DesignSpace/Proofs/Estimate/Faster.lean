/-
  Subject:   A REGION THAT BECOMES FASTER MAKES NO REGION AROUND IT SLOWER, where all else that
             changes is banks, and those that become fewer matter nowhere but in the nest of that
             region.

  * `Estimator.bounded_fresh`: latencies that are known stay within the limit of counts;
  * `Estimator.combine_atMost`: **one region**, where its parts become faster;
  * `Forest.outside`, `Estimator.fresh_noSlower`: **forests**, where some of their nests become
    faster;
  * `Estimator.latencyAt_atMost_of_banks`: **more banks make no region of a design slower**;
  * `Design.EditedAt`: designs that differ at one level;
  * `Estimator.rootMetrics_atMost_of_editedAt`: if the level becomes no slower, neither does the
    root.
-/
import DesignSpace.Proofs.Design.WellFormed
import DesignSpace.Proofs.Estimate.Banks
import DesignSpace.Proofs.Estimate.Edited

namespace DesignSpace

variable {e : Estimator} {d d' : Design} {c : Context} {f : Forest} {n m : Nest}
  {s level : RegionId} {given : List RegionId} {parts parts' : List Metrics}
  {arrays : List ArrayDecl}

/-! ## 1. Within the limit -/

namespace CostModel

theorem bounded_flatLoopMetrics (k : CostModel) :
    (k.flatLoopMetrics arrays c n).latency.Bounded := by
  intro a ha
  unfold flatLoopMetrics at ha
  cases hl : n.region.loop? with
  | none =>
      rw [hl] at ha
      rw [← Cycles.known.inj ha]
      exact Nat.zero_le _
  | some l =>
      rw [hl] at ha
      cases hb : l.trip.bounded <;> cases ht : l.effectiveTile <;> simp only [hb, ht] at ha
      case some.some =>
        rw [← Cycles.known.inj ha]
        exact Count.mul_le_limit _ _
      all_goals cases ha

theorem bounded_outerLoopMetrics {body : Metrics} (hbody : body.latency.Bounded) :
    (outerLoopMetrics arrays c n body).latency.Bounded := by
  unfold outerLoopMetrics
  cases n.region.loop? with
  | none => exact hbody
  | some l =>
      cases hb : l.trip.bounded <;> cases ht : l.effectiveTile <;> simp only [hb, ht]
      case some.some => exact Cycles.bounded_scale _ _
      all_goals exact fun _ h => nomatch h

end CostModel

namespace Estimator

theorem bounded_combine (hparts : ∀ p ∈ parts, p.latency.Bounded) :
    (e.combine d c n parts).latency.Bounded := by
  have hstages := bounded_composeStages hparts (stagesOf n parts)
  unfold combine
  cases n.region.kind with
  | block b =>
      intro a ha
      rw [← Cycles.known.inj ha]
      exact Count.add_le_limit _ _
  | loop l =>
      show (if l.directives.pipeline || n.isInnermostLoop then _ else _ : Metrics).latency.Bounded
      split
      · exact e.model.bounded_flatLoopMetrics
      · exact CostModel.bounded_outerLoopMetrics hstages
  | func f => exact hstages
  | dataflow => exact hstages

/-- **Latencies that are known stay within the limit of counts.** -/
theorem bounded_fresh (e : Estimator) (d : Design) (c : Context) (f : Forest) :
    ∀ p ∈ e.fresh d c f, p.latency.Bounded := by
  induction f generalizing c with
  | nil => exact fun p hp => absurd hp List.not_mem_nil
  | cons r below after ihb iha =>
      rw [fresh, List.forall_mem_cons]
      exact ⟨bounded_combine (ihb _), iha c⟩

/-! ## 2. One region -/

/-- A loop around a faster body, with the same transfers for its tiles. -/
theorem outerLoopMetrics_atMost {arrays' : List ArrayDecl} {body body' : Metrics}
    (hr : m.region = n.region)
    (ht : (c.tileBuffers arrays' m).transfer = (c.tileBuffers arrays n).transfer)
    (hbody : body'.latency.AtMost body.latency) :
    (CostModel.outerLoopMetrics arrays' c m body').latency.AtMost
      (CostModel.outerLoopMetrics arrays c n body).latency := by
  unfold CostModel.outerLoopMetrics
  rw [hr]
  cases n.region.loop? with
  | none => exact hbody
  | some l =>
      have hoverhead : l.tileOverhead (c.tileBuffers arrays' m) =
          l.tileOverhead (c.tileBuffers arrays n) := by
        rw [Loop.tileOverhead, Loop.tileOverhead, ht]
      dsimp only
      rw [hoverhead]
      split
      · exact ((hbody.scale _).add (.refl _)).scale _
      · exact .refl _

/-- **One region whose parts become faster**: it does not become slower, if it is the same where it
    is priced with no look at its parts, and if the transfers for its tiles are the same. -/
theorem combine_atMost (hr : m.region = n.region) (hcount : m.children.length = n.children.length)
    (hinner : m.isInnermostLoop = n.isInnermostLoop)
    (hflat : n.isFlat = true →
      (e.combine d' c m parts').latency.AtMost (e.combine d c n parts).latency)
    (ht : (c.tileBuffers d'.arrays m).transfer = (c.tileBuffers d.arrays n).transfer)
    (h : NoSlower parts' parts) (hb : ∀ p ∈ parts, p.latency.Bounded)
    (hb' : ∀ p ∈ parts', p.latency.Bounded) :
    (e.combine d' c m parts').latency.AtMost (e.combine d c n parts).latency := by
  have hstages : m.stages = n.stages := by rw [Nest.stages, Nest.stages, hr, hcount]
  have hbalance : m.region.balances = n.region.balances := by rw [hr]
  have hwhole := composeStages_atMost hbalance hstages h hb hb'
  by_cases hn : n.isFlat = true
  · exact hflat hn
  · have hk : m.region.kind = n.region.kind := by rw [hr]
    unfold Nest.isFlat at hn
    unfold combine
    rw [hk]
    cases hkind : n.region.kind with
    | block b => rw [hkind] at hn; exact absurd rfl hn
    | loop l =>
        rw [hkind] at hn
        have hn' : ¬ (l.directives.pipeline || m.isInnermostLoop) = true := by
          rw [hinner]
          exact hn
        show (if _ then _ else _ : Metrics).latency.AtMost (if _ then _ else _ : Metrics).latency
        rw [if_neg hn, if_neg hn']
        exact outerLoopMetrics_atMost hr ht hwhole
    | func f => exact hwhole
    | dataflow => exact hwhole

end Estimator

/-! ## 3. Directives of one region -/

/-- The buffers of a nest depend on its region, its accesses and the ranges of its loops. -/
theorem Context.tileBuffers_congr (hr : m.region = n.region) (ha : m.accesses = n.accesses)
    (hranges : m.ranges = n.ranges) : c.tileBuffers arrays m = c.tileBuffers arrays n := by
  have hp : c.promotions arrays m = c.promotions arrays n :=
    promotions_congr (by rw [Region.gate, hr, Region.gate]) ha
  have hf : m.tileFootprint = n.tileFootprint := by
    funext a
    unfold Nest.tileFootprint
    rw [hr, ha, hranges]
  rw [tileBuffers, tileBuffers, hp, hf, ha]

namespace Estimator

variable {g : Region → Region}

/-- What is priced with no look at its parts does not depend on directives below it. -/
theorem combine_map_of_flat (hg : Directing g) (hr : g n.region = n.region)
    (ha : d'.arrays = d.arrays) (hn : n.isFlat = true) :
    e.combine d' c (n.map g) parts' = e.combine d c n parts := by
  have hregion : (n.map g).region = n.region := hr
  unfold Nest.isFlat at hn
  unfold combine
  rw [hregion, ha, Nest.isInnermostLoop_map hg]
  cases hk : n.region.kind with
  | block b => rfl
  | loop l =>
      rw [hk] at hn
      have hn : (l.directives.pipeline || n.isInnermostLoop) = true := hn
      have hacc := Nest.accesses_map hg n
      have henter : c.enter d.arrays (n.map g) = c.enter d.arrays n :=
        Context.enter_congr (by rw [Region.gate, hregion, Region.gate]) hacc
      have hbuffers : c.tileBuffers d.arrays (n.map g) = c.tileBuffers d.arrays n :=
        Context.tileBuffers_congr hregion hacc (Nest.ranges_map hg n)
      have hbody : ∀ iv, e.model.flatBody d.arrays (c.enter d.arrays n) iv (n.map g).below =
          e.model.flatBody d.arrays (c.enter d.arrays n) iv n.below := by
        intro iv
        have hflat : (n.map g).below.flatten (c.enter d.arrays n) 1 =
            n.below.flatten (c.enter d.arrays n) 1 := Forest.flatten_map hg _ _ _
        unfold CostModel.flatBody
        rw [hflat]
      show (if _ then _ else _ : Metrics) = if _ then _ else _
      rw [if_pos hn, if_pos hn]
      unfold CostModel.flatLoopMetrics
      rw [hregion, henter, hbuffers]
      simp only [hbody]
  | func f => rw [hk] at hn; cases hn
  | dataflow => rw [hk] at hn; cases hn

end Estimator

/-! ## 4. Forests -/

/-- The nests of a forest that are not in the nest of one of some regions. -/
def Forest.outside (given : List RegionId) : Forest → List Nest
  | .nil => []
  | .cons r below after =>
    (if r.id ∈ given then [] else ⟨r, below⟩ :: below.outside given) ++ after.outside given

theorem Forest.mem_nests_of_outside (h : n ∈ f.outside given) : n ∈ f.nests := by
  induction f with
  | nil => exact absurd h List.not_mem_nil
  | cons r below after ihb iha =>
      rw [outside, List.mem_append] at h
      rw [nests, List.mem_cons, List.mem_append]
      rcases h with h | h
      · split at h
        · exact absurd h List.not_mem_nil
        · exact (List.mem_cons.mp h).imp_right fun h => .inl (ihb h)
      · exact .inr (.inr (iha h))

theorem Forest.not_mem_of_outside (hf : f.ids.Nodup) (h : n ∈ f.outside given) (hm : m ∈ f.nests)
    (hgiven : m.region.id ∈ given) : n.region.id ∉ m.ids := by
  intro hid
  induction f with
  | nil => exact absurd h List.not_mem_nil
  | cons r below after ihb iha =>
      have ap := apart_of_nodup hf
      rw [outside, List.mem_append] at h
      rw [nests, List.mem_cons, List.mem_append] at hm
      rcases h with h | h
      · split at h
        · exact absurd h List.not_mem_nil
        · next hr =>
          rcases List.mem_cons.mp h with rfl | h
          · rcases hm with rfl | hm | hm
            · exact hr hgiven
            · exact ap.notBelow (mem_ids_of_mem_nest hm hid)
            · exact ap.notAfter (mem_ids_of_mem_nest hm hid)
          · have hn := mem_ids_of_mem_nests (mem_nests_of_outside h)
            rcases hm with rfl | hm | hm
            · exact hr hgiven
            · exact ihb ap.nodupBelow h hm
            · exact ap.disjoint _ hn (mem_ids_of_mem_nest hm hid)
      · have hn := mem_ids_of_mem_nests (mem_nests_of_outside h)
        rcases hm with rfl | hm | hm
        · rw [Nest.ids_eq] at hid
          rcases List.mem_cons.mp hid with heq | hid
          · exact ap.notAfter (heq ▸ hn)
          · exact ap.disjoint _ hid hn
        · exact ap.disjoint _ (mem_ids_of_mem_nest hm hid) hn
        · exact iha ap.nodupAfter h hm

namespace Estimator

variable {g : Region → Region}

/-- **Forests where some nests become no slower**, whatever changes in them: no part of the forest
    becomes slower, if nothing but banks changes elsewhere, and where a block or a flat body
    accesses an array, that has no fewer banks. -/
theorem fresh_noSlower (given : List RegionId) (hg : Directing g)
    (hbare : d'.arrays.map ArrayDecl.bare = d.arrays.map ArrayDecl.bare) (hf : f.ids.Nodup)
    (hsame : ∀ n ∈ f.outside given, g n.region = n.region)
    (hbanks : ∀ n ∈ f.outside given, n.isFlat = true → ∀ x ∈ n.accesses,
      NoFewerBanks d.arrays d'.arrays x.array)
    (h : ∀ s ∈ given, ∀ x x', e.estimateIn? d s c f = some x →
      e.estimateIn? d' s c (f.map g) = some x' → x'.metrics.latency.AtMost x.metrics.latency) :
    NoSlower (e.fresh d' c (f.map g)) (e.fresh d c f) := by
  induction f generalizing c with
  | nil => exact .nil
  | cons r below after ihb iha =>
      have ap := Forest.apart_of_nodup hf
      have ap' : Forest.Apart (g r) (below.map g) (after.map g) :=
        Forest.apart_of_nodup (Forest.ids_map hg.id_eq (.cons r below after) ▸ hf)
      rw [Forest.outside, List.forall_mem_append] at hsame hbanks
      rw [Forest.map] at h ⊢
      rw [fresh, fresh]
      refine .cons ?_ (iha ap.nodupAfter hsame.2 hbanks.2 fun s hs x x' hx hx' =>
        h s hs x x' ((estimateIn?_of_after ap (mem_ids_of_estimateIn? hx)).trans hx)
          ((estimateIn?_of_after ap' (mem_ids_of_estimateIn? hx')).trans hx'))
      by_cases hr : r.id ∈ given
      · exact h r.id hr _ _ (if_pos rfl) (if_pos (hg.id_eq r))
      · -- the region is as it was, and all that became faster lies below it
        rw [if_neg hr, List.forall_mem_cons] at hsame hbanks
        obtain ⟨⟨hregion, hsame⟩, -⟩ := hsame
        obtain ⟨⟨hflat, hbanks⟩, -⟩ := hbanks
        have hregion : ((Nest.mk r below).map g).region = r := hregion
        have hacc := Nest.accesses_map hg ⟨r, below⟩
        have henter : c.enter d'.arrays ((Nest.mk r below).map g) =
            c.enter d.arrays ⟨r, below⟩ := by
          rw [Context.enter_of_bare hbare]
          exact Context.enter_congr (congrArg Region.gate hregion) hacc
        have hbelow := ihb (c := c.enter d.arrays ⟨r, below⟩) ap.nodupBelow hsame hbanks
          fun s hs x x' hx hx' =>
            h s hs x x' ((estimateIn?_of_below ap (mem_ids_of_estimateIn? hx)).trans hx)
              ((estimateIn?_of_below ap' (mem_ids_of_estimateIn? hx')).trans (henter ▸ hx'))
        have htransfer : (c.tileBuffers d'.arrays ((Nest.mk r below).map g)).transfer =
            (c.tileBuffers d.arrays ⟨r, below⟩).transfer := by
          rw [Context.transfer_of_bare hbare]
          exact congrArg Buffers.transfer
            (Context.tileBuffers_congr hregion hacc (Nest.ranges_map hg ⟨r, below⟩))
        show (e.combine d' c ((Nest.mk r below).map g)
          (e.fresh d' (c.enter d'.arrays ((Nest.mk r below).map g)) (below.map g))).latency.AtMost _
        rw [henter]
        refine combine_atMost hregion (Nest.length_children_map ⟨r, below⟩)
          (Nest.isInnermostLoop_map hg ⟨r, below⟩) (fun hn => ?_) htransfer hbelow
          (e.bounded_fresh _ _ _) (e.bounded_fresh _ _ _)
        have hmap : ∀ parts, e.combine d' c ((Nest.mk r below).map g) parts =
            e.combine d' c ⟨r, below⟩ parts := fun _ => combine_map_of_flat hg hregion rfl hn
        rw [hmap]
        exact combine_atMost_of_flat hbare hn (hflat hn) _ _

end Estimator

/-! ## 5. Regions of a design -/

/-- The latency of a region of a design, made anew. -/
def Estimator.latencyAt (e : Estimator) (d : Design) (id : RegionId) : Cycles :=
  ((e.estimate? d id).map fun x => x.metrics.latency).getD .unknown

/-- All accesses to an array lie in the nest of the region whose lifetime it shares. -/
def Design.Confined (d : Design) (a : ArrayDecl) : Prop :=
  ∀ n ∈ d.forest.nests, (∃ x ∈ n.region.accesses, x.array = a.name) →
    n.region.id ∈ d.subtree (d.scopeOf a)

theorem Forest.exists_root_of_mem_ids {id : RegionId} (h : id ∈ f.ids) :
    ∃ n ∈ f.roots, id ∈ n.ids := by
  induction f with
  | nil => exact absurd h List.not_mem_nil
  | cons r below after _ iha =>
      rw [ids_cons, List.mem_cons, List.mem_append] at h
      rw [roots]
      rcases h with h | h | h
      · exact ⟨_, List.mem_cons_self, by rw [Nest.ids_eq]; exact List.mem_cons.mpr (.inl h)⟩
      · exact ⟨_, List.mem_cons_self, by rw [Nest.ids_eq]; exact List.mem_cons_of_mem _ h⟩
      · obtain ⟨n, hn, hid⟩ := iha h
        exact ⟨n, List.mem_cons_of_mem _ hn, hid⟩

namespace Design

variable {a : ArrayDecl}

/-- A loop around a scope has more than blocks directly below it. -/
theorem isInnermostLoop_eq_false_of_scope (hd : d.preorder.Nodup) (hf : d.forest.Leafy)
    (hn : n ∈ d.forest.nests) (hm : m ∈ d.forest.nests) (hscope : m.region.kind.isScope = true)
    (hbelow : m.region.id ∈ n.below.ids) : n.isInnermostLoop = false := by
  rw [Bool.eq_false_iff]
  intro hinner
  obtain ⟨k, hk, hin⟩ := Forest.exists_root_of_mem_ids hbelow
  have hblock := List.all_eq_true.mp (Bool.and_eq_true_iff.mp hinner).2 k hk
  have hkmem : k ∈ d.forest.nests :=
    Forest.nests_below_subset hn k (Forest.roots_subset_nests _ k hk)
  -- nothing lies below a block, so the scope would be that block itself
  rw [Nest.ids_eq, hf k hkmem hblock] at hin
  have hsame : m = k := Forest.eq_of_id_eq hd hm hkmem (List.mem_singleton.mp hin)
  exact Region.not_isScope_of_block? (hsame ▸ hblock) hscope

/-- A region around the scope of an array that is no pipelined loop is accounted for by its
    parts. -/
theorem isFlat_of_above_scope (hd : d.preorder.Nodup) (hc : d.check = .ok ()) (ha : a ∈ d.arrays)
    (hn : n ∈ d.above (d.scopeOf a)) (hp : n.region.isPipelined = false) : n.isFlat = false := by
  obtain ⟨m, hfind, hscope⟩ := scope_of_check hc ha
  obtain ⟨hm, hid⟩ := Forest.find?_mem hfind
  have hleafy := leafy_of_check hc
  obtain ⟨hnest, hbelow⟩ := mem_of_mem_above hn
  unfold Nest.isFlat
  cases hkind : n.region.kind with
  | block b =>
      have hnil := hleafy n hnest (by rw [Region.block?, hkind]; rfl)
      rw [hnil] at hbelow
      exact absurd hbelow List.not_mem_nil
  | loop l =>
      have hpipelined : l.directives.pipeline = false := by
        rwa [Region.isPipelined, Region.loop?, hkind] at hp
      have hinner := isInnermostLoop_eq_false_of_scope hd hleafy hnest hm hscope (hid ▸ hbelow)
      show (l.directives.pipeline || n.isInnermostLoop) = false
      rw [hpipelined, hinner]
      rfl
  | func f => rfl
  | dataflow => rfl

/-- Around the nest of the scope nothing that accesses the array is priced with a flat body. -/
theorem isFlat_of_confined (hd : d.preorder.Nodup) (hc : d.check = .ok ()) (ha : a ∈ d.arrays)
    (hconfined : d.Confined a) (hburied : d.buried (d.scopeOf a) = false) (hn : n ∈ d.forest.nests)
    (hout : n.region.id ∉ d.subtree (d.scopeOf a)) {x : Access} (hx : x ∈ n.accesses)
    (hname : x.array = a.name) : n.isFlat = false := by
  obtain ⟨r, hr, hxr⟩ := List.mem_flatMap.mp hx
  obtain ⟨q, hq, rfl⟩ := List.mem_map.mp hr
  have hqsub := hconfined q (Forest.nests_nest_subset hn q hq) ⟨x, hxr, hname⟩
  have hqids : q.region.id ∈ n.ids := List.mem_map_of_mem hr
  obtain ⟨k, hk⟩ := Forest.exists_find?_of_mem_ids (Forest.mem_ids_of_mem_nests hn)
  obtain ⟨hkmem, hkid⟩ := Forest.find?_mem hk
  obtain rfl := Forest.eq_of_id_eq hd hkmem hn hkid
  -- the access lies in both nests, so one of them is in the other
  have habove : k.region.id ∈ d.ancestors (d.scopeOf a) := by
    rcases (mem_nest_ids_iff hd hk).mp hqids with heq | hanc
    · exact absurd (heq ▸ hqsub) hout
    · exact (ancestors_of_mem_subtree hd hqsub hanc).resolve_left hout
  obtain ⟨m, hm, hmid⟩ := List.mem_map.mp (List.mem_reverse.mp habove)
  obtain rfl := Forest.eq_of_id_eq hd (mem_of_mem_above hm).1 hn hmid
  have hopen : m.region.isPipelined = false :=
    Bool.eq_false_iff.mpr (List.any_eq_false.mp hburied m hm)
  exact isFlat_of_above_scope hd hc ha hm hopen

end Design

namespace Estimator

/-- The root is the one region of its forest that is not below another one. -/
theorem rootMetrics_atMost (h : NoSlower (e.fresh d' {} d'.forest) (e.fresh d {} d.forest)) :
    (e.rootMetrics d').latency.AtMost (e.rootMetrics d).latency :=
  (List.forall₂_cons.mp h).1

theorem atMost_of_latencyAt (h : (e.latencyAt d' s).AtMost (e.latencyAt d s)) {x x' : Estimate}
    (hx : e.estimateIn? d s {} d.forest = some x)
    (hx' : e.estimateIn? d' s {} d'.forest = some x') :
    x'.metrics.latency.AtMost x.metrics.latency := by
  rw [estimateIn?_forest] at hx hx'
  unfold latencyAt at h
  rw [hx, hx'] at h
  exact h

/-- **More banks make no region of a design slower.** -/
theorem latencyAt_atMost_of_banks (hd : d.preorder.Nodup) (hforest : d'.forest = d.forest)
    (hbare : d'.arrays.map ArrayDecl.bare = d.arrays.map ArrayDecl.bare)
    (hbanks : ∀ name, NoFewerBanks d.arrays d'.arrays name) (id : RegionId) :
    (e.latencyAt d' id).AtMost (e.latencyAt d id) := by
  have hcontext : d'.context id = d.context id := by
    have henter : (fun (c : Context) n => c.enter d'.arrays n) = fun c n => c.enter d.arrays n :=
      funext fun c => funext fun n => Context.enter_of_bare hbare n
    rw [Design.context, Design.context, Design.above, hforest, henter]
    rfl
  rw [latencyAt, latencyAt, estimate?, estimate?, Design.find?, hforest, hcontext, ← Design.find?]
  cases hn : d.find? id with
  | none => exact .refl _
  | some n =>
      -- the nest is a forest of its own, and nothing is given of its regions
      have hids := Forest.nodup_nest hd (Forest.find?_mem hn).1
      have hnest := fresh_noSlower (e := e) (c := d.context id) (g := fun r => r) []
        (fun _ => rfl) hbare hids (fun _ _ => rfl) (fun _ _ _ x _ => hbanks x.array)
        fun s hs => absurd hs List.not_mem_nil
      have hmap : n.toForest.map (fun r => r) = n.toForest := Forest.map_id _
      rw [hmap] at hnest
      exact (List.forall₂_cons.mp hnest).1

end Estimator

/-! ## 6. Designs that differ at a level -/

namespace Design

/-- **Designs that differ at a level**: in the directives of its region, and in the banks of the
    arrays whose scope it is. -/
structure EditedAt (d d' : Design) (level : RegionId) : Prop where
  bare : d'.bare = d.bare
  regions : ∀ r ∈ d.forest.regions, r.id ≠ level → r ∈ d'.forest.regions
  arrays : ∀ a ∈ d.arrays, d.scopeOf a ≠ level → a ∈ d'.arrays

/-- What is outside of a nest is not in the nest of its region. -/
theorem not_mem_subtree_of_outside (hd : d.preorder.Nodup)
    (hn : n ∈ d.forest.outside [level]) : n.region.id ∉ d.subtree level := by
  unfold subtree
  cases hm : d.find? level with
  | none => exact List.not_mem_nil
  | some m =>
      obtain ⟨hmem, hid⟩ := Forest.find?_mem hm
      exact Forest.not_mem_of_outside hd hn hmem (List.mem_singleton.mpr hid)

namespace EditedAt

theorem nodup (h : d.EditedAt d' level) (hd : d.preorder.Nodup) : d'.forest.ids.Nodup := by
  rw [← preorder, preorder_of_bare (forest_of_bare h.bare)]
  exact hd

/-- The regions of other levels are the same. -/
theorem counterpart_eq (h : d.EditedAt d' level) (hd : d.preorder.Nodup)
    (hn : n ∈ d.forest.nests) (hid : n.region.id ≠ level) :
    d'.forest.counterpart n.region = n.region :=
  Forest.counterpart_eq (h.nodup hd) (h.regions _ (List.mem_map_of_mem hn) hid) rfl

/-- An array that is not the same has the level for its scope. -/
theorem scopeOf_eq (h : d.EditedAt d' level) (hc' : d'.check = .ok ()) {a a' : ArrayDecl}
    (ha : a ∈ d.arrays) (ha' : a' ∈ d'.arrays) (hname : a.name = a'.name) (hne : a ≠ a') :
    d.scopeOf a = level := by
  by_contra hscope
  exact hne (List.inj_on_of_nodup_map (check_eq_ok_iff.mp hc').1 (h.arrays a ha hscope) ha' hname)

/-- **What is priced with a flat body elsewhere** accesses no array with fewer banks, if each of
    these is accessed below the level only, and no pipelined loop is around the level. -/
theorem noFewerBanks (h : d.EditedAt d' level) (hd : d.preorder.Nodup) (hc : d.check = .ok ())
    (hc' : d'.check = .ok ())
    (hfewer : ∀ a ∈ d.arrays, d.scopeOf a = level → ∀ a' ∈ d'.arrays, a'.bare = a.bare →
      a'.partition < a.partition → d.Confined a ∧ d.buried level = false)
    (hn : n ∈ d.forest.outside [level]) (hflat : n.isFlat = true) {x : Access}
    (hx : x ∈ n.accesses) : NoFewerBanks d.arrays d'.arrays x.array := by
  intro a a' ha ha'
  have hmem := List.mem_of_find?_eq_some ha
  have hmem' := List.mem_of_find?_eq_some ha'
  have hname : a.name = x.array := by simpa using List.find?_some ha
  have hname' : a'.name = x.array := by simpa using List.find?_some ha'
  have hbare : a'.bare = a.bare := by
    have hfind := ArrayDecl.find?_of_bare (congrArg Design.arrays h.bare) x.array
    rw [ha, ha'] at hfind
    exact Option.some.inj hfind
  by_contra hlt
  have hscope := h.scopeOf_eq hc' hmem hmem' (hname.trans hname'.symm) fun heq =>
    hlt (heq ▸ Nat.le_refl _)
  obtain ⟨hconfined, hburied⟩ := hfewer a hmem hscope a' hmem' hbare (Nat.lt_of_not_le hlt)
  have hopen : n.isFlat = false := isFlat_of_confined hd hc hmem hconfined (hscope.symm ▸ hburied)
    (Forest.mem_nests_of_outside hn) (hscope.symm ▸ not_mem_subtree_of_outside hd hn) hx hname.symm
  rw [hopen] at hflat
  cases hflat

end EditedAt

end Design

/-- **A level that becomes no slower** makes the root no slower, where each of its arrays that has
    fewer banks is accessed below the level only, and no pipelined loop is around the level. -/
theorem Estimator.rootMetrics_atMost_of_editedAt (hd : d.preorder.Nodup) (hc : d.check = .ok ())
    (hc' : d'.check = .ok ()) (h : d.EditedAt d' level)
    (hfewer : ∀ a ∈ d.arrays, d.scopeOf a = level → ∀ a' ∈ d'.arrays, a'.bare = a.bare →
      a'.partition < a.partition → d.Confined a ∧ d.buried level = false)
    (hlevel : (e.latencyAt d' level).AtMost (e.latencyAt d level)) :
    (e.rootMetrics d').latency.AtMost (e.rootMetrics d).latency := by
  have hmap := Forest.map_counterpart (h.nodup hd) (Design.forest_of_bare h.bare)
  refine rootMetrics_atMost ?_
  have hwhole := fresh_noSlower (e := e) (c := {}) [level]
    (Forest.directing_counterpart d'.forest) (congrArg Design.arrays h.bare) hd (fun n hn => ?_)
    (fun n hn hflat x hx => h.noFewerBanks hd hc hc' hfewer hn hflat hx)
    fun s hs x x' hx hx' => ?_
  · rwa [hmap] at hwhole
  · have hmem := Forest.mem_nests_of_outside hn
    refine h.counterpart_eq hd hmem fun hid => ?_
    refine Forest.not_mem_of_outside hd hn hmem (List.mem_singleton.mpr hid) ?_
    rw [Nest.ids_eq]
    exact List.mem_cons_self
  · obtain rfl := List.mem_singleton.mp hs
    rw [hmap] at hx'
    exact atMost_of_latencyAt hlevel hx hx'

end DesignSpace
