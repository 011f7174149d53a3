/-
  Subject:   REPLIES of the command line: what is printed, and the exit code.

  * `estimateLines`, `exploreLines`, `batchLine`: the lines that tell of a run;
  * `Command.run`: a command run on a disk;
  * `answer`: the reply to a list of arguments.
-/
import DesignSpace.Workflow
import DesignSpace.CommandLine.Help

namespace DesignSpace.CommandLine

/-- What is printed as the result, what is printed as complaint, and the exit code. -/
structure Reply where
  output : String := ""
  complaint : String := ""
  code : Nat := 0
deriving DecidableEq, Repr

/-! ## 1. Texts -/

/-- The lines that list hardware. -/
def resourceLines (r : Resources) : List String :=
  ["  Resources:",
   "    compute units:    " ++ toString r.computeUnits,
   "    memory ports:     " ++ toString r.memoryPorts,
   "    storage elements: " ++ toString r.storageElements,
   "    control units:    " ++ toString r.controlUnits]

/-- The lines that tell of an estimate. -/
def estimateLines (s : Summary) : List String :=
  ["Module: " ++ s.design,
   "  Latency:  " ++ s.metrics.latency.text ++ " cycles",
   "  Interval: " ++ s.metrics.interval.text ++ " cycles"] ++
  resourceLines s.metrics.resources ++
  if s.violating.isEmpty then []
  else ["  Violations in " ++ toString s.violating.length ++ " region(s)"]

/-- The line that tells what was decided at a level. -/
def levelLine (r : LevelReport) : String :=
  "    " ++ r.label ++ ": " ++
    ", ".intercalate (r.moves.map fun m => m.parameter.text ++ "=" ++ m.setting.text)

/-- The lines that tell of a search. -/
def searchLines (r : SearchReport) : List String :=
  ["  " ++ toString r.levels.length ++ " levels, " ++ toString r.evaluations ++ " evaluations, " ++
    toString r.backtracks ++ " backtracks, " ++ toString r.frontier.length ++ " Pareto points"] ++
  r.levels.map levelLine ++
  if r.infeasible then ["  INFEASIBLE: best-effort configuration committed"] else []

/-- The lines that tell of a run with a search. -/
def exploreLines (o : Outcome) : List String :=
  ["Module: " ++ o.summary.design,
   "  Baseline latency:  " ++ o.baseline.latency.text ++ " cycles",
   "  Optimized latency: " ++ o.summary.metrics.latency.text ++ " cycles"] ++
  (match o.speedup with
    | some x => ["  Speedup: " ++ fixedFloat x ++ "x"]
    | none => []) ++
  resourceLines o.summary.metrics.resources ++
  (match o.search with
    | some r => searchLines r
    | none => [])

/-- The line that tells of one design of several. -/
def batchLine (path : String) (s : Summary) : String :=
  path ++ ": latency " ++ s.metrics.latency.text ++ " cycles, " ++
    toString s.metrics.resources.computeUnits ++ " compute units"

/-- The reply when no command is run. -/
def Stop.reply : Stop → Reply
  | usage => { complaint := Topic.text .program, code := 2 }
  | help topic => { output := topic.text }
  | version => { output := CommandLine.version }

/-! ## 2. Commands -/

variable {m : Type → Type} [Monad m] [Disk m]

/-- The target of a command. -/
def targetOf (path : Option String) : ExceptT WorkflowError m TargetSpec := do
  let s ← loadTarget path
  ExceptT.mk (pure (checkTarget s))
  return s

/-- The reply to several designs: a line for each that has an estimate, and a complaint for each
    other. -/
def batchReply (results : List (String × Except WorkflowError Summary)) : Reply :=
  let good := results.filterMap fun r =>
    match r.2 with
    | .ok s => some (batchLine r.1 s)
    | .error _ => none
  let bad := results.filterMap fun r =>
    match r.2 with
    | .ok _ => none
    | .error e => some (r.1 ++ ": " ++ e.message)
  { output := lines good
    complaint := lines bad
    code := if bad.isEmpty then 0 else 1 }

/-- The reply to a command; the target is looked at before any design. -/
def Command.run : Command → ExceptT WorkflowError m Reply
  | estimate file target output => do
    let outcome ← estimateFile (← targetOf target) file output
    return { output := lines (estimateLines outcome.summary) }
  | explore file target output report => do
    let outcome ← exploreFile (← targetOf target) file output report
    return { output := lines (exploreLines outcome) }
  | batch files target => do
    let s ← targetOf target
    return batchReply (← estimateBatch (m := m) s files)

/-- The reply to a list of arguments. -/
def answer (args : List String) : m Reply := do
  match Command.parse args with
  | .error stop => return stop.reply
  | .ok c =>
    match ← (c.run : ExceptT WorkflowError m Reply).run with
    | .ok reply => return reply
    | .error e => return { complaint := lines ["Error: " ++ e.message], code := 1 }

end DesignSpace.CommandLine
