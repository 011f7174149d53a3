/-
  Subject:   WORK ON FILES that succeeds. What a search writes to a file is read as the design that
             it found, and an estimate of that design is what the search told of it.

  * `Folder.run_bind_eq_ok_iff`: one step of work on a folder after another;
  * `Folder.run_readText_iff`, `run_writeText?_iff`: texts read and written;
  * `Folder.run_exploreFile`: all that the search of a file did;
  * `Explorer.run_of_explore`: an estimate of the design that a search leaves;
  * `exploreFile_reproduced`: **the written design reproduces the outcome.**
-/
import DesignSpace.Workflow
import DesignSpace.Proofs.Design.Writable
import DesignSpace.Proofs.Search.Course

namespace DesignSpace

/-! ## 1. Steps -/

namespace Folder

variable {f g : Folder} {α β : Type}

/-- **One step after another**, where both have a result. -/
theorem run_bind_eq_ok_iff {x : ExceptT WorkflowError (StateM Folder) α}
    {next : α → ExceptT WorkflowError (StateM Folder) β} {b : β} :
    (x >>= next).run.run f = (.ok b, g) ↔
      ∃ a f', x.run.run f = (.ok a, f') ∧ (next a).run.run f' = (.ok b, g) := by
  rw [ExceptT.run_bind, StateT.run_bind]
  rcases x.run.run f with ⟨_ | a, f'⟩
  · exact ⟨nofun, nofun⟩
  · refine ⟨fun h => ⟨a, f', rfl, h⟩, ?_⟩
    rintro ⟨_, _, ⟨⟩, h⟩
    exact h

/-- A step that leaves the folder alone. -/
theorem run_pure_iff {result : Except WorkflowError α} {a : α} :
    (ExceptT.mk (pure result) : ExceptT WorkflowError (StateM Folder) α).run.run f = (.ok a, g) ↔
      result = .ok a ∧ g = f := by
  show (result, f) = (.ok a, g) ↔ _
  rw [Prod.mk.injEq, eq_comm (a := f)]

/-- A step of the disk alone, which cannot fail. -/
theorem run_lift_iff {x : StateM Folder α} {a : α} :
    (liftM x : ExceptT WorkflowError (StateM Folder) α).run.run f = (.ok a, g) ↔
      x.run f = (a, g) := by
  show (Except.ok (x.run f).1, (x.run f).2) = (.ok a, g) ↔ _
  rw [Prod.mk.injEq, Except.ok.injEq, ← Prod.mk.injEq]
  exact .rfl

theorem run_read (f : Folder) (path : String) :
    (Disk.read path : StateM Folder (Option String)).run f = (f.read? path, f) := rfl

theorem run_write (f : Folder) (path text : String) :
    (Disk.write path text : StateM Folder Bool).run f =
      (f.write? path text).elim (false, f) (true, ·) := by
  simp only [Disk.write, StateT.run_bind, StateT.run_get, pure_bind]
  cases f.write? path text <;> rfl

/-- A text is read from where there is one. -/
theorem run_readText_iff {error : WorkflowError} {path text : String} :
    (readText error path : ExceptT WorkflowError (StateM Folder) String).run.run f =
      (.ok text, g) ↔ f.read? path = some text ∧ g = f := by
  unfold readText
  rw [run_bind_eq_ok_iff]
  simp only [run_lift_iff, run_read]
  constructor
  · rintro ⟨found, f', hread, h⟩
    obtain ⟨rfl, rfl⟩ := Prod.mk.inj hread
    cases hf : f.read? path with
    | none => rw [hf] at h; cases h
    | some found =>
        rw [hf] at h
        obtain ⟨htext, rfl⟩ := Prod.mk.inj h
        exact ⟨congrArg some (Except.ok.inj htext), rfl⟩
  · rintro ⟨hread, rfl⟩
    exact ⟨some text, g, by rw [hread], rfl⟩

/-- A text is written to where the path leads to a file. -/
theorem run_writeText?_iff {path text : String} :
    (writeText? (some path) text : ExceptT WorkflowError (StateM Folder) Unit).run.run f =
      (.ok (), g) ↔ f.write? path text = some g := by
  unfold writeText?
  rw [run_bind_eq_ok_iff]
  simp only [run_lift_iff, run_write]
  cases f.write? path text with
  | none =>
      refine ⟨?_, nofun⟩
      rintro ⟨done, f', hwrite, h⟩
      obtain ⟨rfl, rfl⟩ := Prod.mk.inj hwrite
      cases h
  | some f' =>
      constructor
      · rintro ⟨done, f', hwrite, h⟩
        obtain ⟨rfl, rfl⟩ := Prod.mk.inj hwrite
        exact congrArg some (Prod.mk.inj h).2
      · intro h
        obtain rfl := Option.some.inj h
        exact ⟨true, f', rfl, rfl⟩

/-- The design of a file is that of its text. -/
theorem run_loadDesign_iff {path : String} {d : Design} :
    (loadDesign path : ExceptT WorkflowError (StateM Folder) Design).run.run f = (.ok d, g) ↔
      (∃ text, f.read? path = some text ∧ Design.parse text = .ok d) ∧ g = f := by
  unfold loadDesign
  rw [run_bind_eq_ok_iff]
  simp only [run_readText_iff, run_pure_iff, Attempt.mapError_eq_ok_iff]
  constructor
  · rintro ⟨text, f', ⟨hread, rfl⟩, hparse, rfl⟩
    exact ⟨⟨text, hread, hparse⟩, rfl⟩
  · rintro ⟨⟨text, hread, hparse⟩, rfl⟩
    exact ⟨text, g, ⟨hread, rfl⟩, hparse, rfl⟩

/-- **All that the search of a file does**: the design of the text is searched, the design found is
    written, and then the report, if there is a path for it. -/
theorem run_exploreFile {s : TargetSpec} {path output : String} {report : Option String}
    {outcome : Outcome}
    (h : (exploreFile s path (some output) report :
      ExceptT WorkflowError (StateM Folder) Outcome).run.run f = (.ok outcome, g)) :
    ∃ text d final f', f.read? path = some text ∧ Design.parse text = .ok d ∧
      s.explored d = .ok (outcome, final) ∧ f.write? output final.design.dump = some f' ∧
      (g = f' ∨ ∃ p told, report = some p ∧ f'.write? p told = some g) := by
  unfold exploreFile at h
  obtain ⟨d, f₁, hload, hrun⟩ := run_bind_eq_ok_iff.mp h
  obtain ⟨⟨text, hread, hparse⟩, hf₁⟩ := run_loadDesign_iff.mp hload
  obtain ⟨⟨outcome', final⟩, f₂, hexplored, hwritten⟩ := run_bind_eq_ok_iff.mp hrun
  obtain ⟨hexplored, hf₂⟩ := run_pure_iff.mp hexplored
  obtain ⟨_, f', hwrite, htold⟩ := run_bind_eq_ok_iff.mp hwritten
  have hwrite := run_writeText?_iff.mp hwrite
  rw [hf₂, hf₁] at hwrite
  cases hsearch : outcome'.search with
  | none =>
      simp only [hsearch] at htold
      obtain ⟨houtcome, hg⟩ := Prod.mk.inj htold
      obtain rfl := Except.ok.inj houtcome
      exact ⟨text, d, final, f', hread, hparse, hexplored, hwrite, .inl hg.symm⟩
  | some r =>
      simp only [hsearch] at htold
      obtain ⟨_, f₃, hreport, hlast⟩ := run_bind_eq_ok_iff.mp htold
      obtain ⟨houtcome, hg⟩ := Prod.mk.inj hlast
      obtain rfl := Except.ok.inj houtcome
      refine ⟨text, d, final, f', hread, hparse, hexplored, hwrite, ?_⟩
      cases report with
      | none => exact .inl (hg.symm.trans (Prod.mk.inj hreport).2.symm)
      | some p => exact .inr ⟨p, _, rfl, hg ▸ run_writeText?_iff.mp hreport⟩

end Folder

/-! ## 2. What a search leaves -/

/-- **An estimate of what a search leaves**: the design estimated anew gives the metrics of the
    report and the table that the search left. -/
theorem Explorer.run_of_explore {x : Explorer} {a final : Annotated} {report : SearchReport}
    (h : x.explore a = .ok (report, final)) :
    x.spec.estimator.run ⟨final.design, .empty⟩ = .ok (final.summary, final) ∧
      final.summary.metrics = report.metrics := by
  obtain ⟨_, start, v, summary, -, -, hfinal, rfl⟩ := exists_course h
  obtain ⟨hcheck, hsettled, rfl⟩ := Estimator.run_eq_ok_iff.mp hfinal
  have hdesign : final.design = v.progress.annotated.design :=
    hsettled ▸ x.spec.estimator.design_refresh _
  exact ⟨Estimator.run_eq_ok_iff.mpr ⟨hdesign ▸ hcheck, hdesign ▸ hsettled, rfl⟩, rfl⟩

namespace TargetSpec

variable {s : TargetSpec} {d : Design} {outcome : Outcome} {final : Annotated}

/-- What is told of a design that is searched is the report of the search, and the summary of the
    design that it leaves. -/
theorem exists_search_of_explored (h : s.explored d = .ok (outcome, final)) :
    ∃ t report, (Explorer.new s .standard).explore ⟨d, t⟩ = .ok (report, final) ∧
      outcome.search = some report ∧ outcome.summary = final.summary := by
  obtain ⟨⟨before, a⟩, hbefore, h⟩ := Attempt.bind_eq_ok_iff.mp h
  obtain ⟨⟨report, b⟩, hsearch, h⟩ := Attempt.bind_eq_ok_iff.mp h
  obtain ⟨rfl, rfl⟩ := Prod.mk.inj (Except.ok.inj h)
  obtain ⟨-, ha, -⟩ := Estimator.run_eq_ok_iff.mp (Attempt.mapError_eq_ok_iff.mp hbefore)
  have hdesign : a.design = d := ha ▸ s.estimator.design_refresh _
  refine ⟨a.table, report, ?_, rfl, rfl⟩
  rw [← hdesign]
  exact Attempt.mapError_eq_ok_iff.mp hsearch

/-- A search changes directives only, and keeps the rules. -/
theorem rules_of_explored (hd : d.preorder.Nodup) (h : s.explored d = .ok (outcome, final)) :
    final.design.bare = d.bare ∧ final.design.check = .ok () := by
  obtain ⟨t, report, hexplore, -, -⟩ := exists_search_of_explored h
  obtain ⟨_, v, _, -, -, -, hsound, -, hfinal, -⟩ := Explorer.course_of_explore hd hexplore
  exact hfinal ▸ ⟨hsound.settled.bare, hsound.settled.rules⟩

end TargetSpec

/-! ## 3. Files -/

/-- **The written design reproduces the outcome.** Where a search of a file succeeds, its text was
    read as a design, and what the search found of that was written. The text written is read
    again, and an estimate of the design that it holds gives the summary that was told, with the
    metrics of the report of the search, and the rows that a report of the design found has. -/
theorem exploreFile_reproduced {f g : Folder} {s : TargetSpec} {path output : String}
    {report : Option String} {outcome : Outcome}
    (h : (exploreFile s path (some output) report :
      ExceptT WorkflowError (StateM Folder) Outcome).run.run f = (.ok outcome, g)) :
    ∃ text d final told, f.read? path = some text ∧ Design.parse text = .ok d ∧
      s.explored d = .ok (outcome, final) ∧ outcome.search = some told ∧
      ((∀ p, report = some p → Folder.nameOf? p ≠ Folder.nameOf? output) →
        g.read? output = some final.design.dump) ∧
      ∃ c a, Design.parse final.design.dump = .ok c ∧
        s.estimator.run ⟨c, .empty⟩ = .ok (outcome.summary, a) ∧
        outcome.summary.metrics = told.metrics ∧ a.report = final.report := by
  obtain ⟨text, d, final, f', hread, hparse, hexplored, hwrite, hreport⟩ := Folder.run_exploreFile h
  obtain ⟨t, told, hexplore, hsearch, hsummary⟩ := TargetSpec.exists_search_of_explored hexplored
  obtain ⟨hrun, hmetrics⟩ := Explorer.run_of_explore hexplore
  have hdistinct : d.preorder.Nodup := by
    obtain ⟨l, -, -, htree, -⟩ := Design.exists_listing_of_parse hparse
    exact Listing.nodup_of_tree htree
  obtain ⟨hbare, hcheck⟩ := TargetSpec.rules_of_explored hdistinct hexplored
  refine ⟨text, d, final, told, hread, hparse, hexplored, hsearch, fun hother => ?_, final.design,
    final, Design.parse_dump_of_bare hparse hbare hcheck, hsummary ▸ hrun, hsummary ▸ hmetrics, rfl⟩
  -- the report of the search goes to another file
  have hwritten := Folder.read?_write? hwrite output
  rw [if_pos rfl] at hwritten
  rcases hreport with rfl | ⟨p, _, hp, hwrite'⟩
  · exact hwritten
  · rw [Folder.read?_write? hwrite', if_neg (hother p hp).symm]
    exact hwritten

namespace Summing

/-- A loop of additions. -/
def text : String :=
  "\x7b\"name\":\"sum\",\"regions\":[\x7b\"id\":0,\"kind\":\"func\",\"name\":\"top\"\x7d," ++
    "\x7b\"id\":1,\"parent\":0,\"kind\":\"loop\",\"iv\":\"i\",\"trip\":4\x7d," ++
    "\x7b\"id\":2,\"parent\":1,\"kind\":\"block\",\"ops\":[\x7b\"kind\":\"add\"\x7d]\x7d]\x7d"

/-- A folder with the text in a file. -/
def folder : Folder := ⟨[("sum.json", some text)]⟩

/-- The text searched, with the design written to one file and the report to another. -/
def searched : Except WorkflowError Outcome × Folder :=
  (exploreFile {} "sum.json" (some "best.json") (some "report.json") :
    ExceptT WorkflowError (StateM Folder) Outcome).run.run folder

theorem exists_searched : ∃ outcome g, searched = (.ok outcome, g) := by
  have hok : searched.1.isOk = true := by decide +kernel
  rcases hsearched : searched with ⟨_ | outcome, g⟩
  · rw [hsearched] at hok
    cases hok
  · exact ⟨outcome, g, rfl⟩

end Summing

/-- What was found in a loop of additions is read again, and estimated as the search said. -/
theorem exploreFile_reproduced_summing : ∃ outcome g,
    Summing.searched = (.ok outcome, g) ∧
    ∃ written c a, g.read? "best.json" = some written ∧ Design.parse written = .ok c ∧
      (TargetSpec.estimator {}).run ⟨c, .empty⟩ = .ok (outcome.summary, a) := by
  obtain ⟨outcome, g, hrun⟩ := Summing.exists_searched
  obtain ⟨_, _, final, _, -, -, -, -, hread, c, a, hparse, hestimate, -, -⟩ :=
    exploreFile_reproduced hrun
  refine ⟨outcome, g, hrun, final.design.dump, c, a, hread fun p hp => ?_, hparse, hestimate⟩
  obtain rfl := Option.some.inj hp
  decide +kernel

end DesignSpace
