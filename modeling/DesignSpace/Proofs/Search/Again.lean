/-
  Subject:   A SEARCH MADE AGAIN. A search goes through the levels once, and what it decides at one
             of them it does not ask again when another one has made it worth asking. So a design
             that a search has come to may be changed by the next search, and is left as it is where
             it rests.

  * `Explorer.restsAt_of_rests`: a design at rest, at any region;
  * `Progress.Sound.alikeBut_searchLevel`: the search of a level changes parameters of it only;
  * `Visit.Strayed`: a search that has moved at one of its levels, and cannot undo it at the others;
  * `Explorer.Course.rests_or_strayed`: **where the budgets are kept, a search rests at every level
    or strays**;
  * `Explorer.explore_again`: **a search made again leaves a design at rest as it is**, and where
    the budgets are kept no other;
  * `Ported.not_again`: a design that the next search makes faster;
  * `Filled.tile_left_out`: a design at rest whose tile the next search leaves out.
-/
import DesignSpace.Proofs.Parameter.Apart
import DesignSpace.Proofs.Search.Account
import DesignSpace.Proofs.Search.Resting

namespace DesignSpace

variable {spec : TargetSpec} {d c : Design} {level j : RegionId} {progress next : Progress}
  {report : LevelReport} {ps : List Parameter} {p : Parameter}

/-! ## 1. Levels -/

namespace Explorer

variable {x : Explorer} {m : Move}

/-- A trial is one of a parameter that an operator has at the level. -/
theorem exists_target_of_trial (h : m ∈ x.trials level d) :
    ∃ o ∈ x.operators, m.parameter ∈ o.targets ⟨d, .empty⟩ level := by
  obtain ⟨o, ho, h⟩ := List.mem_flatMap.mp h
  obtain ⟨p, hp, h⟩ := List.mem_flatMap.mp h
  obtain ⟨s, -, h⟩ := List.mem_flatMap.mp h
  refine ⟨o, ho, ?_⟩
  unfold Operator.trial at h
  split at h
  · exact absurd h List.not_mem_nil
  · rwa [List.mem_singleton.mp h]

/-- **A design at rest**, at any region: one that is no level has nothing to try. -/
theorem restsAt_of_rests (h : (new spec .standard).Rests d) (level : RegionId) :
    (new spec .standard).RestsAt level d := by
  intro m hm
  obtain ⟨o, ho, htarget⟩ := exists_target_of_trial (mem_of_mem_allowed hm)
  exact h level (mem_levels_of_target (Registry.mem_of_mem_ordered ho) htarget) m hm

/-- The parameters that a design has at a level. -/
def parametersAt (x : Explorer) (d : Design) (level : RegionId) : List Parameter :=
  x.operators.flatMap fun o => o.targets ⟨d, .empty⟩ level

/-- The parameters that it has at its other levels. -/
def parametersOff (x : Explorer) (d : Design) (level : RegionId) : List Parameter :=
  ((x.levels ⟨d, .empty⟩).filter fun j => j ≠ level).flatMap (x.parametersAt d)

/-- No parameter is at a level and at another one. -/
theorem disjoint_parameters (hc : d.check = .ok ()) (level : RegionId) :
    ((new spec .standard).parametersAt d level).Disjoint
      ((new spec .standard).parametersOff d level) := by
  have hat : ∀ {p j}, p ∈ (new spec .standard).parametersAt d j → p.At d j := by
    intro p j hp
    obtain ⟨o, ho, hp⟩ := List.mem_flatMap.mp hp
    exact Registry.at_of_mem_standard (a := ⟨d, .empty⟩) hc (Registry.mem_of_mem_ordered ho) hp
  intro p hp hoff
  obtain ⟨j, hj, hp'⟩ := List.mem_flatMap.mp hoff
  exact of_decide_eq_true (List.mem_filter.mp hj).2 ((hat hp').unique (hat hp))

end Explorer

namespace Progress.Sound

/-- **The search of a level changes parameters of it only.** -/
theorem alikeBut_searchLevel (h : progress.Sound spec d)
    (hs : (Explorer.new spec .standard).searchLevel level progress = .ok (report, next))
    (hps : ∀ o ∈ Registry.standard.operators, ∀ p ∈ o.targets ⟨d, .empty⟩ level, p ∈ ps) :
    progress.annotated.design.AlikeBut ps next.annotated.design := by
  refine h.ofWrites hs (P := fun c => progress.annotated.design.AlikeBut ps c) ?_ ?_
    ((Design.Alike.refl _).alikeBut ps)
  · exact fun _ _ halike hbut => hbut.trans (halike.alikeBut ps)
  · intro a b o p s ha ho hp hw hbut
    have hp : p ∈ o.targets ⟨d, .empty⟩ level :=
      Registry.targets_of_bare ho (b := ⟨d, .empty⟩) ha.bare level ▸ hp
    exact hbut.trans (.write (hps o ho p hp) hw)

end Progress.Sound

/-! ## 2. A search that moves -/

/-- **A search that has moved at a level**, where `ahead` are the levels still to come: the design
    was another one after that level, and what was changed since then are other parameters. -/
def Visit.Strayed (x : Explorer) (d : Design) (ahead : List RegionId) (v : Visit) : Prop :=
  ∃ level c, level ∉ ahead ∧ ¬ d.Alike c ∧ d.AlikeBut (x.parametersAt d level) c ∧
    c.AlikeBut (x.parametersOff d level) v.progress.annotated.design

/-- Such a search does not come back to where it was. -/
theorem Visit.Strayed.not_alike {ahead : List RegionId} {v : Visit} (hc : d.check = .ok ())
    (h : v.Strayed (Explorer.new spec .standard) d ahead) :
    ¬ d.Alike v.progress.annotated.design := by
  obtain ⟨level, c, -, hmoved, hat, hoff⟩ := h
  intro halike
  exact hmoved (hat.alike (hoff.trans (halike.symm.alikeBut _)).symm
    (Explorer.disjoint_parameters hc level))

namespace Explorer

variable {start : Annotated} {ahead : List RegionId} {v : Visit}
  {cur : Option (RegionId × LevelReport)}

/-- **Where the budgets are kept**, a search of a design rests at every level so far, or it has
    strayed; it never goes back. -/
theorem Course.rests_or_strayed (h : Course (new spec .standard) start ahead v cur)
    (hstart : start.Settled spec.estimator d) (hdesign : start.design = d)
    (hfits : spec.target.fits (spec.estimator.rootMetrics d) = true) :
    spec.target.fits (spec.estimator.rootMetrics v.progress.annotated.design) = true ∧
    (d.Alike v.progress.annotated.design ∧
        (∀ level ∈ (new spec .standard).levels start, level ∉ ahead →
          (new spec .standard).RestsAt level d) ∨
      v.Strayed (new spec .standard) d ahead) := by
  induction h with
  | start =>
      subst hdesign
      exact ⟨hfits, .inl ⟨.refl _, fun _ hlevel hahead => absurd hlevel hahead⟩⟩
  | @search level ahead v report next hcourse hs ih =>
      obtain ⟨hfits', hv⟩ := ih
      have hsound := (hcourse.sound hstart).1
      have hsearched := hsound.searched hs
      refine ⟨hsearched.fits_of_fits hfits', ?_⟩
      rcases hv with ⟨halike, hrests⟩ | ⟨i, c, hi, hmoved, hat, hoff⟩
      · by_cases hnext : d.Alike next.annotated.design
        · refine .inl ⟨hnext, fun j hj hahead => ?_⟩
          by_cases hlevel : j = level
          · exact hlevel ▸ hsound.restsAt_of_alike halike hs hfits hnext
          · exact hrests j hj fun hmem => (List.mem_cons.mp hmem).elim hlevel hahead
        · refine .inr ⟨level, next.annotated.design, ?_, hnext, ?_, (Design.Alike.refl _).alikeBut _⟩
          · have hnodup := hcourse.regions.1 ▸
              nodup_levels (x := new spec .standard) hstart.complete.distinct
            exact (List.nodup_cons.mp (List.nodup_append'.mp hnodup).2.1).1
          · refine (halike.alikeBut _).trans (hsound.alikeBut_searchLevel hs fun o ho p hp => ?_)
            exact List.mem_flatMap.mpr ⟨o, Registry.mem_ordered_standard ho _, hp⟩
      · obtain ⟨hne, hi⟩ := List.ne_and_not_mem_of_not_mem_cons hi
        refine .inr ⟨i, c, hi, hmoved, hat, hoff.trans
          (hsound.alikeBut_searchLevel hs fun o ho p hp => ?_)⟩
        refine List.mem_flatMap.mpr ⟨level, List.mem_filter.mpr
          ⟨mem_levels_of_target ho hp, decide_eq_true (Ne.symm hne)⟩, ?_⟩
        exact List.mem_flatMap.mpr ⟨o, Registry.mem_ordered_standard ho _, hp⟩
  | giveUp hcourse hmisfit _ _ _ _ _ ih =>
      exact absurd (((hcourse.sound hstart).2 _ _ rfl).trans ih.1) hmisfit
  | help hcourse hmisfit _ _ _ _ _ _ ih =>
      exact absurd (((hcourse.sound hstart).2 _ _ rfl).trans ih.1) hmisfit
  | settle _ _ ih => exact ih

/-- **A design at rest** stays alike in every search, whatever its budgets. -/
theorem Course.alike_of_rests (h : Course (new spec .standard) start ahead v cur)
    (hstart : start.Settled spec.estimator d) (hdesign : start.design = d)
    (hrests : (new spec .standard).Rests d) : d.Alike v.progress.annotated.design := by
  refine h.keeps (P := fun progress => d.Alike progress.annotated.design) hstart ?_ ?_
  · show d.Alike start.design
    rw [hdesign]
    exact .refl d
  · intro progress next level report hsound hs halike
    exact hsound.alike_of_restsAt halike hs (restsAt_of_rests hrests level)

/-- **A search that ends where it started**, within its budgets, started at rest. -/
theorem Course.rests_of_alike (h : Course (new spec .standard) start [] v none)
    (hstart : start.Settled spec.estimator d) (hdesign : start.design = d)
    (hfits : spec.target.fits (spec.estimator.rootMetrics d) = true)
    (halike : d.Alike v.progress.annotated.design) : (new spec .standard).Rests d := by
  have hc : d.check = .ok () := hdesign ▸ hstart.rules
  rcases (h.rests_or_strayed hstart hdesign hfits).2 with ⟨-, hrests⟩ | hstrayed
  · intro level hlevel
    rw [levels_of_bare (b := start) hstart.bare.symm] at hlevel
    exact hrests level hlevel List.not_mem_nil
  · exact absurd halike (hstrayed.not_alike hc)

end Explorer

/-! ## 3. The whole search -/

namespace Explorer

variable {l : Listing} {t : Table} {final : Annotated} {report : SearchReport}

/-- **A search made again.** Take a search of the design of a listing with the standard operators.
    The design that it ends with can be searched again. If that design rests, the second search
    leaves it as it is, but for tiles as long as their loop, and ends with the same metrics; and if
    it keeps the budgets for hardware, the second search leaves no other design so. -/
theorem explore_again (hd : l.design = .ok d)
    (h : (new spec .standard).explore ⟨d, t⟩ = .ok (report, final)) :
    ∃ report' final', (new spec .standard).explore final = .ok (report', final') ∧
      ((new spec .standard).Rests final.design →
        final.design.Alike final'.design ∧ report'.metrics = report.metrics) ∧
      (spec.target.fits report.metrics = true → final.design.Alike final'.design →
        (new spec .standard).Rests final.design) := by
  obtain ⟨hs, hp, -⟩ := start_of_explore h
  obtain ⟨_, v, _, -, -, -, hsound, hmetrics, hfinal, rfl⟩ :=
    course_of_explore (Listing.nodup_of_design hd) h
  have hdistinct : final.design.preorder.Nodup := hfinal ▸ hsound.settled.complete.distinct
  have hrules : final.design.check = .ok () := hfinal ▸ hsound.settled.rules
  obtain ⟨_, _, final', -, -, -, hagain, -⟩ :=
    @explore_total spec .standard final.design hdistinct final.table hs hp hrules
  obtain ⟨_, v', _, hstart, hdesign, hcourse, -, hmetrics', hfinal', hreport⟩ :=
    course_of_explore hdistinct hagain
  refine ⟨_, final', hagain, fun hrests => ?_, fun hfits halike => ?_⟩
  · have halike := hcourse.alike_of_rests hstart hdesign hrests
    rw [hreport, hfinal']
    refine ⟨halike, ?_⟩
    calc _ = spec.estimator.rootMetrics v'.progress.annotated.design := hmetrics'
      _ = spec.estimator.rootMetrics final.design := halike.rootMetrics_eq spec.estimator
      _ = _ := by rw [hfinal, ← hmetrics]; rfl
  · refine hcourse.rests_of_alike hstart hdesign ?_ (hfinal' ▸ halike)
    rw [hfinal, ← hmetrics]
    exact hfits

/-- A search that ends at rest, within its budgets, and is made again. -/
theorem explore_again_smoothing : Smoothing.listing.design = .ok Smoothing.design ∧
    ∃ report final report' final',
      (new Smoothing.tight .standard).explore ⟨Smoothing.design, .empty⟩ = .ok (report, final) ∧
      (new Smoothing.tight .standard).Rests final.design ∧
      Smoothing.tight.target.fits report.metrics = true ∧
      (new Smoothing.tight .standard).explore final = .ok (report', final') ∧
      final.design.Alike final'.design ∧ report'.metrics = report.metrics := by
  obtain ⟨report, final, hreport, heq⟩ := exists_result_eq
    (x := new Smoothing.tight .standard) (a := ⟨Smoothing.design, .empty⟩) (c := (true, true))
    (fun r => (decide ((new Smoothing.tight .standard).Rests r.2.design),
      Smoothing.tight.target.fits r.1.metrics)) (by decide +kernel)
  obtain ⟨hrests, hfits⟩ := Prod.mk.inj heq
  have hrests := of_decide_eq_true hrests
  obtain ⟨report', final', hagain, hsame, -⟩ := explore_again Smoothing.design_listing hreport
  obtain ⟨halike, hmetrics⟩ := hsame hrests
  exact ⟨Smoothing.design_listing, report, final, report', final', hreport, hrests, hfits, hagain,
    halike, hmetrics⟩

end Explorer

/-! ## 4. A design that does not rest -/

namespace Ported

/-- A loop of eight rounds. -/
def loop : Loop := { iv := "i", trip := .static 8 }

/-- One element read twice, and written. -/
def body : Block where
  accesses :=
    [⟨"a", .read, [⟨"i", ["i"]⟩]⟩, ⟨"a", .read, [⟨"i", ["i"]⟩]⟩, ⟨"a", .write, [⟨"i", ["i"]⟩]⟩]

/-- A function of one loop. -/
def listing : Listing where
  name := "ported"
  records :=
    [⟨⟨0, .func { name := "top" }, none⟩, none⟩, ⟨⟨1, .loop loop, none⟩, some 0⟩,
     ⟨⟨2, .block body, none⟩, some 1⟩]
  arrays := [{ name := "a", shape := [8] }]

/-- The function as a tree. -/
def design : Design where
  name := "ported"
  root := ⟨0, .func { name := "top" }, none⟩
  below := .cons ⟨1, .loop loop, none⟩ (.cons ⟨2, .block body, none⟩ .nil .nil) .nil
  arrays := listing.arrays

/-- **The next search makes the design faster.** The loop comes first, and with one bank there is no
    use in more than two rounds at once; then the function gives the array four banks, and with
    these the next search has use for eight. -/
theorem not_again : listing.design = .ok design ∧ ∃ report final report' final',
    (Explorer.new {} .standard).explore ⟨design, .empty⟩ = .ok (report, final) ∧
    (Explorer.new {} .standard).explore final = .ok (report', final') ∧
    report.metrics.latency = .known 8 ∧ report'.metrics.latency = .known 6 ∧
    ¬ final'.design.listing = final.design.listing ∧ ¬ report'.metrics = report.metrics := by
  obtain ⟨report, final, hreport, h⟩ := Explorer.exists_result_eq
    (x := Explorer.new {} .standard) (a := ⟨design, .empty⟩)
    (c := some (.known 8, .known 6, false))
    (fun r => ((Explorer.new {} .standard).explore r.2).toOption.map fun r' =>
      (r.1.metrics.latency, r'.1.metrics.latency,
        decide (r'.2.design.listing = r.2.design.listing)))
    (by decide +kernel)
  obtain ⟨report', final', hagain, heq⟩ := Explorer.exists_result_eq _ h
  obtain ⟨hlatency, heq⟩ := Prod.mk.inj heq
  obtain ⟨hlatency', hlisting⟩ := Prod.mk.inj heq
  refine ⟨by decide +kernel, report, final, report', final', hreport, hagain, hlatency, hlatency',
    of_decide_eq_false hlisting, fun hsame => ?_⟩
  rw [hsame, hlatency] at hlatency'
  cases hlatency'

end Ported

/-! ## 5. A design at rest with a tile as long as its loop -/

namespace Filled

/-- A pipelined loop of eight rounds, all at once, with a tile of eight. -/
def design : Design where
  name := "filled"
  root := ⟨0, .func { name := "top" }, none⟩
  below :=
    .cons ⟨1, .loop { iv := "i", trip := .static 8, directives := ⟨true, 8, some 8⟩ }, none⟩
      (.cons ⟨2, .block { ops := [⟨.add, 32⟩], accesses := [⟨"a", .read, [⟨"i", ["i"]⟩]⟩] }, none⟩
        .nil .nil) .nil
  arrays := [{ name := "a", shape := [8] }]

/-- A target with one port, for which tiles are tried first. -/
def single : TargetSpec where
  target := { budgets := { memoryPorts := some 1 } }
  options := { priority := ["tile"] }

/-- **A search made again leaves out a tile as long as the loop.** The first search has no other
    tile to try as long as all rounds are at once, and ends with fewer of them; so the second one
    tries other tiles, in vain, and the tile that it writes back is as good as none. -/
theorem tile_left_out : ∃ report final report' final',
    (Explorer.new single .standard).explore ⟨design, .empty⟩ = .ok (report, final) ∧
    (Explorer.new single .standard).explore final = .ok (report', final') ∧
    (Explorer.new single .standard).Rests final.design ∧
    final.design.loop? 1 = some ⟨"i", .static 8, ⟨true, 1, some 8⟩⟩ ∧
    final'.design.loop? 1 = some ⟨"i", .static 8, ⟨true, 1, none⟩⟩ := by
  obtain ⟨report, final, hreport, h⟩ := Explorer.exists_result_eq
    (x := Explorer.new single .standard) (a := ⟨design, .empty⟩)
    (c := some (true, some ⟨"i", .static 8, ⟨true, 1, some 8⟩⟩,
      some ⟨"i", .static 8, ⟨true, 1, none⟩⟩))
    (fun r => ((Explorer.new single .standard).explore r.2).toOption.map fun r' =>
      (decide ((Explorer.new single .standard).Rests r.2.design), r.2.design.loop? 1,
        r'.2.design.loop? 1))
    (by decide +kernel)
  obtain ⟨report', final', hagain, heq⟩ := Explorer.exists_result_eq _ h
  obtain ⟨hrests, heq⟩ := Prod.mk.inj heq
  obtain ⟨hbefore, hafter⟩ := Prod.mk.inj heq
  exact ⟨report, final, report', final', hreport, hagain, of_decide_eq_true hrests, hbefore, hafter⟩

end Filled

end DesignSpace
