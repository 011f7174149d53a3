/-
  Subject:   PARAMETERS: the directives of a design that can be changed one at a time.

  * `Parameter`, `Setting`: which directive, and a value for it;
  * `Design.setting`, `Design.write`: the value of a directive, and the design with another one;
  * `Design.stale`: the regions whose estimates depend on a directive;
  * `Annotated.set`, `Annotated.undo`: a directive changed, where the design has to keep the rules,
    and a change taken back.
-/
import DesignSpace.Estimate

namespace DesignSpace

/-! ## 1. Parameters and settings -/

/-- A directive that can be changed. -/
inductive Parameter where
  | pipeline (region : RegionId)
  | unroll (region : RegionId)
  | tile (region : RegionId)
  | partition (array : String)
  | dataflow (region : RegionId)
deriving DecidableEq, Repr

/-- A value of a directive: on or off, or a number. -/
inductive Setting where
  | flag (on : Bool)
  | factor (n : Nat)
deriving DecidableEq, Repr

/-- A parameter in texts. -/
def Parameter.text : Parameter → String
  | pipeline r => "pipeline(" ++ regionName r ++ ")"
  | unroll r => "unroll(" ++ regionName r ++ ")"
  | tile r => "tile(" ++ regionName r ++ ")"
  | partition a => "partition(" ++ a ++ ")"
  | dataflow r => "dataflow(" ++ regionName r ++ ")"

/-- A setting in texts. -/
def Setting.text : Setting → String
  | flag on => if on then "true" else "false"
  | factor n => toString n

/-- A change of a parameter that can be taken back: the value before it. -/
structure Change where
  parameter : Parameter
  previous : Setting
deriving DecidableEq, Repr

/-- Why a parameter does not apply. -/
inductive Misuse where
  | notLoop
  | notFunction
  | notStatic
  | refused
deriving DecidableEq, Repr

/-- Why a parameter could not be read or changed. -/
inductive ChangeError where
  | unknownRegion (id : RegionId)
  | unknownArray (name : String)
  | notApplicable (parameter : Parameter) (misuse : Misuse)
  | outOfDomain (parameter : Parameter) (setting : Setting)
  | wrongType (parameter : Parameter) (setting : Setting)
  | invalid (defect : Defect)
deriving DecidableEq, Repr

/-- The text of a misuse. -/
def Misuse.message : Misuse → String
  | notLoop => "region is not a loop"
  | notFunction => "region is not a function"
  | notStatic => "trip count is not static"
  | refused => "unsupported loop shape"

/-- The text of an error. -/
def ChangeError.message : ChangeError → String
  | unknownRegion r => "region " ++ regionName r ++ " does not exist"
  | unknownArray a => "array '" ++ a ++ "' does not exist"
  | notApplicable p misuse => p.text ++ " is not applicable: " ++ misuse.message
  | outOfDomain p s => "value " ++ s.text ++ " is outside the domain of " ++ p.text
  | wrongType p s => "value " ++ s.text ++ " has the wrong type for " ++ p.text
  | invalid d => "mutation leaves an invalid module: " ++ d.message

/-! ## 2. Reading and writing -/

namespace Design

/-- The loop that a parameter is about. -/
def loopOf (d : Design) (p : Parameter) (id : RegionId) : Except ChangeError Loop :=
  match d.find? id with
  | none => .error (.unknownRegion id)
  | some n =>
    match n.region.kind with
    | .loop l => .ok l
    | _ => .error (.notApplicable p .notLoop)

/-- The function that a parameter is about. -/
def funcOf (d : Design) (p : Parameter) (id : RegionId) : Except ChangeError Func :=
  match d.find? id with
  | none => .error (.unknownRegion id)
  | some n =>
    match n.region.kind with
    | .func f => .ok f
    | _ => .error (.notApplicable p .notFunction)

/-- The value of a parameter. The tile of a loop without one is the whole loop. -/
def setting (d : Design) (p : Parameter) : Except ChangeError Setting :=
  match p with
  | .pipeline id => do return .flag (← d.loopOf p id).directives.pipeline
  | .unroll id => do return .factor (← d.loopOf p id).directives.unroll
  | .tile id => do
    match (← d.loopOf p id).effectiveTile with
    | some t => return .factor t
    | none => throw (.notApplicable p .notStatic)
  | .partition name =>
    match d.array? name with
    | some a => .ok (.factor a.partition)
    | none => .error (.unknownArray name)
  | .dataflow id => do return .factor (← d.funcOf p id).directives.dataflow

/-- The design with the directives of a loop changed. -/
def setLoop (d : Design) (id : RegionId) (change : Loop → LoopDirectives) : Design :=
  d.updateRegion id fun k =>
    match k with
    | .loop l => .loop { l with directives := change l }
    | k => k

/-- The design with the number of stages of a function changed. -/
def setStages (d : Design) (id : RegionId) (n : Nat) : Design :=
  d.updateRegion id fun k =>
    match k with
    | .func f => .func { f with directives := { f.directives with dataflow := n } }
    | k => k

/-- The design with another value of a parameter; whether it keeps the rules is not asked. A tile
    as long as the loop is written as none. -/
def write (d : Design) (p : Parameter) (s : Setting) : Except ChangeError Design :=
  match p, s with
  | .pipeline id, s => do
    let _ ← d.loopOf p id
    match s with
    | .flag on => return d.setLoop id fun l => { l.directives with pipeline := on }
    | .factor _ => throw (.wrongType p s)
  | .unroll id, s => do
    let _ ← d.loopOf p id
    match s with
    | .factor u => return d.setLoop id fun l => { l.directives with unroll := u }
    | .flag _ => throw (.wrongType p s)
  | .tile id, s => do
    let _ ← d.loopOf p id
    match s with
    | .factor t =>
      return d.setLoop id fun l =>
        { l.directives with tile := if l.trip.bounded = some t then none else some t }
    | .flag _ => throw (.wrongType p s)
  | .partition _, .flag _ => .error (.wrongType p s)
  | .partition name, .factor k =>
    match d.array? name with
    | some _ => .ok (d.updateArray name fun a => { a with partition := k })
    | none => .error (.unknownArray name)
  | .dataflow _, .flag _ => .error (.wrongType p s)
  | .dataflow id, .factor k => do
    let _ ← d.funcOf p id
    return d.setStages id k

/-! ## 3. What depends on a parameter -/

/-- The region whose estimate a parameter changes first. -/
def affected (d : Design) : Parameter → Option RegionId
  | .pipeline id | .unroll id | .tile id | .dataflow id =>
    (d.find? id).map fun n => n.region.id
  | .partition name => (d.array? name).map d.scopeOf

/-- A region and all around it. -/
def withAncestors (d : Design) (id : RegionId) : List RegionId := id :: d.ancestors id

/-- The blocks that access an array. -/
def accessors (d : Design) (name : String) : List RegionId :=
  (d.forest.regions.filter fun r => r.accesses.any fun a => a.array = name).map Region.id

/-- The regions whose estimates depend on a parameter, in no order and perhaps repeated. Loops
    inside see how the loops around them are unrolled and cut into tiles; blocks see the banks of
    the arrays they access. -/
def dependents (d : Design) : Parameter → List RegionId
  | .pipeline id | .dataflow id => d.withAncestors id
  | .unroll id | .tile id => d.subtree id ++ d.withAncestors id
  | .partition name =>
    (match d.array? name with
      | some a => d.withAncestors (d.scopeOf a)
      | none => []) ++ (d.accessors name).flatMap d.withAncestors

/-- The regions whose estimates depend on a parameter, by number. -/
def stale (d : Design) (p : Parameter) : List RegionId :=
  ((Keyed.ofList ((d.dependents p).map fun id => (id, ()))).map Prod.fst)

end Design

/-! ## 4. Changes -/

namespace Annotated

/-- A parameter changed, where the result has to keep the rules. The estimates that depend on it
    are dropped. If the rules are broken, the value before is written back. -/
def set (a : Annotated) (p : Parameter) (s : Setting) :
    Except ChangeError Change × Annotated :=
  match a.design.setting p with
  | .error e => (.error e, a)
  | .ok previous =>
    match a.design.write p s with
    | .error e => (.error e, a)
    | .ok d =>
      match d.check with
      | .ok () => (.ok ⟨p, previous⟩, ⟨d, a.table.invalidate (d.stale p)⟩)
      | .error defect =>
        match d.write p previous with
        | .ok back => (.error (.invalid defect), { a with design := back })
        | .error e => (.error e, { a with design := d })

/-- A change taken back, whether or not the result keeps the rules. -/
def undo (a : Annotated) (c : Change) : Except ChangeError Annotated := do
  let d ← a.design.write c.parameter c.previous
  return ⟨d, a.table.invalidate (d.stale c.parameter)⟩

end Annotated

end DesignSpace
