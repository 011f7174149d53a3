/-
  Subject:   WELL-FORMED DESIGNS. The rules for arrays, accesses and directives, and the first rule
             that a design breaks.

  * `Defect`: what can be wrong with a design or with a listing of one, and its text;
  * `Design.check`: the first defect of a tree, arrays before regions, regions by number.
-/
import DesignSpace.Design.Basic

namespace DesignSpace

/-! ## 1. Defects -/

/-- What can be wrong with an array by itself. -/
inductive ArrayFlaw where
  | shape
  | width
  | partition
deriving DecidableEq, Repr

/-- What can be wrong with the scope of an array. -/
inductive ScopeFlaw where
  | kind
  | missing
deriving DecidableEq, Repr

/-- What can be wrong with the directives of a region. -/
inductive DirectiveFlaw where
  | stages (stages top : Nat)
  | noUnroll
  | unboundedNest
  | tile (tile trip : Nat)
  | unroll (unroll tile : Nat)
  | unbounded
deriving DecidableEq, Repr

/-- What can be wrong with a design. -/
inductive Defect where
  | repeatedRegion (id : RegionId)
  | unknownParent (region parent : RegionId)
  | noRoot
  | secondRoot (first second : RegionId)
  | cycle (region : RegionId)
  | childOfBlock (region : RegionId)
  | repeatedArray (name : String)
  | undeclaredArray (region : RegionId) (name : String)
  | rank (region : RegionId) (name : String) (expected found : Nat)
  | scope (name : String) (scope : RegionId) (flaw : ScopeFlaw)
  | array (name : String) (flaw : ArrayFlaw)
  | directive (region : RegionId) (flaw : DirectiveFlaw)
  | subscript (text : String)
deriving DecidableEq, Repr

/-- The text of a flaw. -/
def ArrayFlaw.message : ArrayFlaw → String
  | shape => "shape must be non-empty with positive extents"
  | width => "element width must be positive"
  | partition => "partition factor must divide the last extent"

@[inherit_doc ArrayFlaw.message]
def ScopeFlaw.message : ScopeFlaw → String
  | kind => "scope must be a function or dataflow region"
  | missing => "region does not exist"

@[inherit_doc ArrayFlaw.message]
def DirectiveFlaw.message : DirectiveFlaw → String
  | stages n top => "dataflow stages " ++ toString n ++ " outside 1..=" ++ toString top
  | noUnroll => "unroll factor must be positive"
  | unboundedNest => "pipelined loop nest has an inner loop without a static trip count"
  | tile t n => "tile " ++ toString t ++ " does not divide trip " ++ toString n
  | unroll u t => "unroll " ++ toString u ++ " does not divide tile " ++ toString t
  | unbounded => "unbounded loops cannot be unrolled or tiled"

/-- The text of a defect. -/
def Defect.message : Defect → String
  | repeatedRegion id => "region " ++ regionName id ++ " is defined more than once"
  | unknownParent r p =>
    "region " ++ regionName r ++ " references undefined parent " ++ regionName p
  | noRoot => "module has no root region"
  | secondRoot a b =>
    "module has multiple root regions: " ++ regionName a ++ " and " ++ regionName b
  | cycle r => "region " ++ regionName r ++ " is part of a parent cycle"
  | childOfBlock r => "block " ++ regionName r ++ " cannot have children"
  | repeatedArray a => "array '" ++ a ++ "' is declared more than once"
  | undeclaredArray r a => "region " ++ regionName r ++ " accesses undeclared array '" ++ a ++ "'"
  | rank r a expected found =>
    "access to '" ++ a ++ "' in region " ++ regionName r ++ " has rank " ++ toString found ++
      ", array has rank " ++ toString expected
  | scope a s flaw =>
    "array '" ++ a ++ "' has invalid scope " ++ regionName s ++ ": " ++ flaw.message
  | array a flaw => "invalid array '" ++ a ++ "': " ++ flaw.message
  | directive r flaw => "invalid directive on region " ++ regionName r ++ ": " ++ flaw.message
  | subscript s => "invalid affine index '" ++ s ++ "'"

/-! ## 2. Rules -/

/-- Fails with a flaw unless a condition holds. -/
def demand {ε : Type} (holds : Bool) (otherwise : ε) : Except ε Unit :=
  if holds then .ok () else .error otherwise

theorem demand_eq_ok_iff {ε : Type} {b : Bool} {e : ε} : demand b e = .ok () ↔ b = true := by
  cases b <;> simp [demand]

theorem demand_bind_eq_ok_iff {ε : Type} {b : Bool} {e : ε} {rest : Except ε Unit} :
    (do demand b e; rest) = .ok () ↔ b = true ∧ rest = .ok () := by
  cases b <;> simp [demand, bind, Except.bind]

namespace ArrayDecl

/-- The rules for an array by itself: positive extents, a positive width, and a number of banks
    that divides the last extent. -/
def check (a : ArrayDecl) : Except ArrayFlaw Unit := do
  demand (!a.shape.isEmpty && a.shape.all fun n => decide (0 < n)) .shape
  demand (decide (0 < a.bits)) .width
  demand (decide (0 < a.partition) && a.lastExtent % a.partition == 0) .partition

theorem check_eq_ok_iff (a : ArrayDecl) :
    a.check = .ok () ↔
      (a.shape ≠ [] ∧ ∀ n ∈ a.shape, 0 < n) ∧ 0 < a.bits ∧ 0 < a.partition ∧
        a.lastExtent % a.partition = 0 := by
  unfold check
  rw [demand_bind_eq_ok_iff, demand_bind_eq_ok_iff, demand_eq_ok_iff]
  simp [List.all_eq_true]

end ArrayDecl

namespace Loop

/-- The rules for the directives of a loop. In a bounded loop the tile divides the trip count and
    the unroll factor divides the tile; another loop has neither. Below a loop that is pipelined
    all loops are bounded. -/
def check (l : Loop) (innerStatic : Bool) : Except DirectiveFlaw Unit := do
  let u := l.directives.unroll
  demand (u != 0) .noUnroll
  demand (!l.directives.pipeline || innerStatic) .unboundedNest
  match l.trip.bounded with
  | some n =>
    let t := l.directives.tile.getD n
    demand (t != 0 && n % t == 0) (.tile t n)
    demand (t % u == 0) (.unroll u t)
  | none => demand (u ≤ 1 && l.directives.tile.isNone) .unbounded

end Loop

namespace Design

/-- The scope of an array is a function or a dataflow node. -/
def checkScope (d : Design) (a : ArrayDecl) : Except ScopeFlaw Unit :=
  match d.find? (d.scopeOf a) with
  | none => .error .missing
  | some n => demand n.region.kind.isScope .kind

/-- The rules for the arrays of a table, where the names in `before` are taken. -/
def checkArrays (d : Design) : (before : List String) → List ArrayDecl → Except Defect Unit
  | _, [] => .ok ()
  | before, a :: as => do
    demand (!before.contains a.name) (.repeatedArray a.name)
    a.check.mapError (.array a.name)
    (d.checkScope a).mapError (.scope a.name (d.scopeOf a))
    checkArrays d (a.name :: before) as

/-- An access names an array and has as many subscripts as the array has dimensions. -/
def checkAccess (d : Design) (id : RegionId) (a : Access) : Except Defect Unit :=
  match d.array? a.array with
  | none => .error (.undeclaredArray id a.array)
  | some decl =>
    demand (decl.shape.length == a.index.length)
      (.rank id a.array decl.shape.length a.index.length)

/-- The rules for one region: a block has no parts and its accesses are right, a loop and a
    function have directives that are right. -/
def checkNest (d : Design) (n : Nest) : Except Defect Unit :=
  let id := n.region.id
  match n.region.kind with
  | .block b => do
    demand n.children.isEmpty (.childOfBlock id)
    b.accesses.forM (checkAccess d id)
  | .loop l => (l.check n.innerLoopsStatic).mapError (.directive id)
  | .func f =>
    let top := max n.children.length 1
    let k := f.directives.dataflow
    demand (decide (1 ≤ k) && decide (k ≤ top)) (.directive id (.stages k top))
  | .dataflow => .ok ()

/-- The first defect of a design: arrays in the order of the table, then regions by number. -/
def check (d : Design) : Except Defect Unit := do
  d.checkArrays [] d.arrays
  d.ascending.forM d.checkNest

end Design

end DesignSpace
