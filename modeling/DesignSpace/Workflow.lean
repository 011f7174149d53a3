/-
  Subject:   WORK ON FILES: designs and targets read from a disk, estimates and searches run on
             them, and reports written back.

  * `WorkflowError`: what can go wrong on the way;
  * `Outcome`: what one run over a design comes to;
  * `TargetSpec.estimated`, `TargetSpec.explored`: the runs themselves;
  * `loadTarget`, `estimateFile`, `exploreFile`, `estimateBatch`: the same on files.
-/
import DesignSpace.Disk
import DesignSpace.Design.Text
import DesignSpace.Target.Text
import DesignSpace.Search.Text

namespace DesignSpace

/-- What can go wrong in work on files. -/
inductive WorkflowError where
  | targetUnreadable
  | target (error : TargetTextError)
  | fileFailed
  | design (error : DesignError)
  | defect (defect : Defect)
  | search (error : SearchError)
deriving DecidableEq, Repr

/-- The text of an error. -/
def WorkflowError.message : WorkflowError → String
  | targetUnreadable => "Target spec error: the file cannot be read"
  | target e => "Target spec error: " ++ e.message
  | fileFailed => "the file cannot be read or written"
  | design e => e.message
  | defect d => "Invalid module: " ++ d.message
  | search e => "Exploration failed: " ++ e.message

/-- What a run over a design comes to: the metrics of the root before, the summary after, and for a
    search its report and how many times faster the design became. -/
structure Outcome where
  baseline : Metrics
  summary : Summary
  search : Option SearchReport := none
  speedup : Option Float := none

/-- How many times faster a design became; none where a latency is unknown or nothing is left. -/
def speedup : Cycles → Cycles → Option Float
  | .known before, .known after => if after = 0 then none else some (ofCount before / ofCount after)
  | _, _ => none

/-! ## 1. Runs -/

namespace TargetSpec

/-- A design estimated for a target. -/
def estimated (s : TargetSpec) (d : Design) : Except WorkflowError (Outcome × Annotated) := do
  let (summary, a) ← (s.estimator.run ⟨d, .empty⟩).mapError .defect
  return ({ baseline := summary.metrics, summary }, a)

/-- A design estimated for a target, and then searched. -/
def explored (s : TargetSpec) (d : Design) : Except WorkflowError (Outcome × Annotated) := do
  let (before, a) ← (s.estimator.run ⟨d, .empty⟩).mapError .defect
  let (report, a) ← (a.explore s).mapError .search
  return (
    { baseline := before.metrics
      summary := a.summary
      search := some report
      speedup := speedup before.metrics.latency report.metrics.latency }, a)

end TargetSpec

/-! ## 2. Files -/

variable {m : Type → Type} [Monad m] [Disk m]

/-- A text under a path, or an error if there is none. -/
def readText {ε : Type} (error : ε) (path : String) : ExceptT ε m String := do
  match ← Disk.read (m := m) path with
  | some s => return s
  | none => throw error

/-- A text put under a path, if one is given. -/
def writeText? (path : Option String) (text : String) : ExceptT WorkflowError m Unit := do
  match path with
  | none => return ()
  | some path =>
    if ← Disk.write (m := m) path text then return () else throw .fileFailed

/-- The target under a path, or the usual one if no path is given. -/
def loadTarget (path : Option String) : ExceptT WorkflowError m TargetSpec := do
  match path with
  | none => return {}
  | some path =>
    let text ← readText .targetUnreadable path
    ExceptT.mk (pure ((TargetSpec.parse text).mapError .target))

/-- A target that keeps the rules. -/
def checkTarget (s : TargetSpec) : Except WorkflowError Unit :=
  s.check.mapError fun e => .target (.target e)

/-- The design under a path. -/
def loadDesign (path : String) : ExceptT WorkflowError m Design := do
  let text ← readText .fileFailed path
  ExceptT.mk (pure ((Design.parse text).mapError .design))

/-- The design under a path estimated. The report of all regions goes to `output`. -/
def estimateFile (s : TargetSpec) (path : String) (output : Option String) :
    ExceptT WorkflowError m Outcome := do
  let d ← loadDesign path
  let (outcome, a) ← ExceptT.mk (pure (s.estimated d))
  writeText? output a.report.value.pretty
  return outcome

/-- The design under a path searched. The design that was found goes to `output`, and then the
    report of the search to `report`. -/
def exploreFile (s : TargetSpec) (path : String) (output report : Option String) :
    ExceptT WorkflowError m Outcome := do
  let d ← loadDesign path
  let (outcome, a) ← ExceptT.mk (pure (s.explored d))
  writeText? output a.design.dump
  if let some r := outcome.search then
    writeText? report r.value.pretty
  return outcome

/-- The designs under some paths estimated, each with its own outcome. -/
def estimateBatch (s : TargetSpec) (paths : List String) :
    m (List (String × Except WorkflowError Summary)) :=
  paths.mapM fun path => do
    let outcome ← (estimateFile s path none : ExceptT WorkflowError m Outcome).run
    return (path, outcome.map Outcome.summary)

end DesignSpace
