/-
  Subject:   TARGETS AS JSON TEXTS. Every member is optional; unknown members are not allowed.

  * `RawTarget`: the members of a text before their values are looked at;
  * `Target.parse`, `TargetSpec.parse`: the target in a text, without and with search options;
    both look at the members in the same order.
-/
import DesignSpace.Target.Clock
import DesignSpace.Json.Reader

namespace DesignSpace

open Json (Value Reader)

/-- Why a text holds no target. -/
inductive TargetTextError where
  | json (fault : Json.Fault)
  | target (error : TargetError)
deriving DecidableEq, Repr

/-- The text of an error. -/
def TargetTextError.message : TargetTextError → String
  | json f => "Failed to parse target spec JSON: " ++ f.message
  | target e => e.message

/-! ## 1. Members -/

/-- The members of search options. -/
structure RawOptions where
  strategy : Option String := none
  priority : Option (List String) := none
  candidateBudget : Option Value := none
  maxBacktracks : Option Value := none

/-- The members of a target. -/
structure RawTarget where
  clockPeriod : Option Value := none
  budgets : List (String × Value) := []
  latencyBudget : Option Value := none
  opLatency : List (String × Value) := []
  portsPerBank : Option Value := none
  externalPorts : Option Value := none
  search : Option RawOptions := none

/-- Unknown members are not allowed. -/
def noStray {α : Type} (_ : String) : Option (α → Reader α) := none

/-- A value or nothing, with a number of brackets around it. -/
def anyInside (brackets : Nat) : Reader (Option Value) :=
  Json.Reader.optional (Json.Reader.value (Json.Reader.depth - brackets))

namespace RawOptions

/-- Search options. -/
def reader : Reader RawOptions :=
  Json.Reader.record
    [⟨"strategy", fun o => do
        return { o with strategy := ← Json.Reader.optional Json.Reader.text }⟩,
     ⟨"operator_priority", fun o => do
        return { o with
          priority := ← Json.Reader.optional (Json.Reader.list Json.Reader.text) }⟩,
     ⟨"candidate_budget", fun o => do return { o with candidateBudget := ← anyInside 2 }⟩,
     ⟨"max_backtracks", fun o => do return { o with maxBacktracks := ← anyInside 2 }⟩]
    [] noStray {}

end RawOptions

namespace RawTarget

/-- Values under free names. -/
def namedValues : Reader (List (String × Value)) :=
  Json.Reader.assoc (Json.Reader.value (Json.Reader.depth - 2))

/-- The members of a target. -/
def reader : Reader RawTarget :=
  Json.Reader.record
    [⟨"clock_period", fun t => do return { t with clockPeriod := ← anyInside 1 }⟩,
     ⟨"resource_budgets", fun t => do return { t with budgets := ← namedValues }⟩,
     ⟨"latency_budget", fun t => do return { t with latencyBudget := ← anyInside 1 }⟩,
     ⟨"op_latency", fun t => do return { t with opLatency := ← namedValues }⟩,
     ⟨"memory_ports_per_bank", fun t => do return { t with portsPerBank := ← anyInside 1 }⟩,
     ⟨"external_ports", fun t => do return { t with externalPorts := ← anyInside 1 }⟩,
     ⟨"dse", fun t => do return { t with search := ← Json.Reader.optional RawOptions.reader }⟩]
    [] noStray {}

end RawTarget

/-! ## 2. Values -/

/-- A count: a whole number that is not negative, written with or without a decimal point. -/
def countOf (field : String) (v : Value) : Except TargetError Nat :=
  let notCount := .error (.invalid field (.notCount v.compact))
  match v with
  | .number (.natural n) => .ok n
  | .number (.negative n) => .error (.negative field ("-" ++ toString n))
  | .number (.real x) =>
    if x < 0.0 then .error (.negative field (plainFloat x))
    else if isWhole x then .ok (wholeCount x)
    else notCount
  | _ => notCount

/-- A count of at least one. -/
def positiveCountOf (field : String) (v : Value) : Except TargetError Nat := do
  let n ← countOf field v
  demand (n != 0) (.invalid field .notPositive)
  return n

/-- A member that may be missing, with a value that counts then. -/
def memberOr {α : Type} (read : Value → Except TargetError α) (default : α) :
    Option Value → Except TargetError α
  | some v => read v
  | none => .ok default

namespace Budgets

/-- The budgets of named values, in their order. -/
def ofNamed (entries : List (String × Value)) : Except TargetError Budgets :=
  entries.foldlM (fun b e => do
    match ResourceKind.ofName? e.1 with
    | none => throw (.unknownResource e.1)
    | some k => return b.set k (← countOf ("resource_budgets." ++ e.1) e.2)) {}

end Budgets

/-- The measured cycle counts of named values, in their order. -/
def latenciesOf (entries : List (String × Value)) : Except TargetError (List (String × Nat)) :=
  entries.mapM fun e => do
    demand (isLatencyKey e.1) (.unknownOperation e.1)
    return (e.1, ← countOf ("op_latency." ++ e.1) e.2)

namespace Target

/-- The target that the members give. -/
def ofRaw (r : RawTarget) : Except TargetError Target := do
  let clockPeriod ← memberOr DesignSpace.clockPeriod defaultClockPeriod r.clockPeriod
  let budgets ← Budgets.ofNamed r.budgets
  let latencyBudget ←
    memberOr (fun v => return some (← countOf "latency_budget" v)) none r.latencyBudget
  let opLatency ← latenciesOf r.opLatency
  let portsPerBank ← memberOr (positiveCountOf "memory_ports_per_bank") 2 r.portsPerBank
  let externalPorts ← memberOr (positiveCountOf "external_ports") 1 r.externalPorts
  return { clockPeriod, budgets, latencyBudget, opLatency, portsPerBank, externalPorts }

/-- The target in a text; search options are not looked at. -/
def parse (s : String) : Except TargetTextError Target := do
  let raw ← (Json.Reader.document RawTarget.reader s).mapError .json
  (ofRaw raw).mapError .target

end Target

namespace SearchOptions

/-- The first name that comes twice. -/
def repeated? : (before : List String) → List String → Option String
  | _, [] => none
  | before, s :: rest => if before.contains s then some s else repeated? (s :: before) rest

/-- The search options that the members give. -/
def ofRaw (r : RawOptions) : Except TargetError SearchOptions := do
  let defaults : SearchOptions := {}
  let strategy ← match r.strategy with
    | none => .ok defaults.strategy
    | some s =>
      match Strategy.ofName? s with
      | some x => .ok x
      | none => .error (.invalid "dse.strategy" (.strategy s))
  let priority ← match r.priority with
    | none => .ok defaults.priority
    | some names =>
      match repeated? [] names with
      | some s => .error (.invalid "dse.operator_priority" (.repeatedOperator s))
      | none => .ok names
  let candidateBudget ←
    memberOr (fun v => return some (← positiveCountOf "dse.candidate_budget" v)) none
      r.candidateBudget
  let maxBacktracks ← memberOr (countOf "dse.max_backtracks") defaults.maxBacktracks r.maxBacktracks
  return { strategy, priority, candidateBudget, maxBacktracks }

end SearchOptions

namespace TargetSpec

/-- The target and the search options that the members give. -/
def ofRaw (r : RawTarget) : Except TargetError TargetSpec := do
  let target ← Target.ofRaw r
  match r.search with
  | none => return { target }
  | some o => return { target, options := ← SearchOptions.ofRaw o }

/-- The target in a text with its search options. -/
def parse (s : String) : Except TargetTextError TargetSpec := do
  let raw ← (Json.Reader.document RawTarget.reader s).mapError .json
  (ofRaw raw).mapError .target

end TargetSpec

end DesignSpace
