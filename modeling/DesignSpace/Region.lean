/-
  Subject:   REGIONS of a hardware design and the ARRAYS they access. A region is a block of
             operations, a loop, a function or a dataflow node; its directives say how it is built.

  * `Operation`, `Access`, `Block`: straight-line code;
  * `Loop`, `Trip`, `LoopDirectives`: loops with a trip count that is known or only named;
  * `Func`, `FuncDirectives`: functions, whose parts may run as overlapping stages;
  * `Region`: one region without what lies below it;
  * `ArrayDecl`: one array, on chip or external.
-/
import DesignSpace.Count
import DesignSpace.Subscript

namespace DesignSpace

/-- The number by which a region is known. -/
abbrev RegionId := Nat

/-- The name of a region in texts: `r` and its number. -/
def regionName (id : RegionId) : String := "r" ++ toString id

/-! ## 1. Straight-line code -/

/-- The kinds of operations. Those that start with `f` work on floating-point numbers. -/
inductive OpKind where
  | add
  | sub
  | mul
  | div
  | rem
  | shift
  | logic
  | cmp
  | select
  | cast
  | fadd
  | fsub
  | fmul
  | fdiv
  | fcmp
  | fsqrt
deriving DecidableEq, Repr

namespace OpKind

/-- All kinds. -/
def all : List OpKind :=
  [add, sub, mul, div, rem, shift, logic, cmp, select, cast, fadd, fsub, fmul, fdiv, fcmp, fsqrt]

theorem mem_all (k : OpKind) : k ∈ all := by cases k <;> decide

/-- The name of a kind. -/
def name : OpKind → String
  | add => "add"
  | sub => "sub"
  | mul => "mul"
  | div => "div"
  | rem => "rem"
  | shift => "shift"
  | logic => "logic"
  | cmp => "cmp"
  | select => "select"
  | cast => "cast"
  | fadd => "fadd"
  | fsub => "fsub"
  | fmul => "fmul"
  | fdiv => "fdiv"
  | fcmp => "fcmp"
  | fsqrt => "fsqrt"

/-- The kind with a name. -/
def ofName? (s : String) : Option OpKind := all.find? fun k => k.name = s

theorem ofName?_name (k : OpKind) : ofName? k.name = some k := by cases k <;> decide

end OpKind

/-- An operation on words of some width. -/
structure Operation where
  kind : OpKind
  bits : Nat := 32
deriving DecidableEq, Repr

/-- The direction of an access. -/
inductive AccessKind where
  | read
  | write
deriving DecidableEq, Repr

namespace AccessKind

/-- The name of a direction. -/
def name : AccessKind → String
  | read => "read"
  | write => "write"

/-- The direction with a name. -/
def ofName? (s : String) : Option AccessKind := [read, write].find? fun k => k.name = s

end AccessKind

/-- An access to an array, with a subscript for every dimension. -/
structure Access where
  array : String
  kind : AccessKind
  index : List Subscript
deriving DecidableEq, Repr

namespace Access

/-- Whether a variable occurs in a subscript. -/
def uses (a : Access) (iv : String) : Bool := a.index.any fun s => s.uses iv

/-- Whether a variable occurs in the last subscript, the one that chooses the bank. -/
def lastUses (a : Access) (iv : String) : Bool :=
  match a.index.getLast? with
  | some s => s.uses iv
  | none => false

end Access

/-- A block: operations and accesses without a branch. -/
structure Block where
  ops : List Operation := []
  accesses : List Access := []
deriving DecidableEq, Repr

/-! ## 2. Loops -/

/-- How often a loop runs: a number, or the name of one that is not known. -/
inductive Trip where
  | static (n : Nat)
  | symbolic (name : String)
deriving DecidableEq, Repr

/-- The trip count of a loop that is known to run at least once. -/
def Trip.bounded : Trip → Option Nat
  | .static n => if 0 < n then some n else none
  | .symbolic _ => none

/-- How a loop is built: whether its iterations overlap, how many of them are laid side by side,
    and into tiles of which size it is cut. -/
structure LoopDirectives where
  pipeline : Bool := false
  unroll : Nat := 1
  tile : Option Nat := none
deriving DecidableEq, Repr

/-- A loop over an induction variable. -/
structure Loop where
  iv : String
  trip : Trip
  directives : LoopDirectives := {}
deriving DecidableEq, Repr

namespace Loop

/-- The tile size of a bounded loop; without a tile it is one tile as long as the loop. -/
def effectiveTile (l : Loop) : Option Nat := l.trip.bounded.map fun n => l.directives.tile.getD n

/-- Whether a bounded loop is cut into tiles shorter than itself. -/
def isTiled (l : Loop) : Bool :=
  match l.trip.bounded, l.directives.tile with
  | some n, some t => decide (t < n)
  | _, _ => false

end Loop

/-! ## 3. Functions and regions -/

/-- How a function is built: into how many stages its parts are grouped, and whether the groups
    follow the latencies of the parts instead of their number. -/
structure FuncDirectives where
  dataflow : Nat := 1
  balance : Bool := false
deriving DecidableEq, Repr

/-- A function. -/
structure Func where
  name : String
  directives : FuncDirectives := {}
deriving DecidableEq, Repr

/-- What a region is. -/
inductive Kind where
  | block (body : Block)
  | loop (loop : Loop)
  | func (func : Func)
  | dataflow
deriving DecidableEq, Repr

namespace Kind

/-- The name of a kind of region. -/
def name : Kind → String
  | block _ => "block"
  | loop _ => "loop"
  | func _ => "func"
  | dataflow => "dataflow"

/-- Whether arrays may live as long as a region of this kind. -/
def isScope : Kind → Bool
  | func _ => true
  | dataflow => true
  | _ => false

end Kind

/-- How parts of a region follow each other: one after the other, or overlapping as stages. -/
inductive Composition where
  | sequential
  | dataflow
deriving DecidableEq, Repr

namespace Composition

/-- The name of a composition. -/
def name : Composition → String
  | sequential => "sequential"
  | dataflow => "dataflow"

/-- The composition with a name. -/
def ofName? (s : String) : Option Composition := [sequential, dataflow].find? fun c => c.name = s

end Composition

/-- One region by itself: its number, what it is, and the composition it is annotated with. -/
structure Region where
  id : RegionId
  kind : Kind
  composition : Option Composition := none
deriving DecidableEq, Repr

namespace Region

/-- The loop that a region is. -/
def loop? (r : Region) : Option Loop :=
  match r.kind with
  | .loop l => some l
  | _ => none

/-- The block that a region is. -/
def block? (r : Region) : Option Block :=
  match r.kind with
  | .block b => some b
  | _ => none

/-- The accesses of the region itself. -/
def accesses (r : Region) : List Access :=
  match r.kind with
  | .block b => b.accesses
  | _ => []

/-- A region in texts: its name, and what it is. -/
def label (r : Region) : String :=
  match r.kind with
  | .loop l => regionName r.id ++ " (loop " ++ l.iv ++ ")"
  | .func f => regionName r.id ++ " (func " ++ f.name ++ ")"
  | k => regionName r.id ++ " (" ++ k.name ++ ")"

/-- Whether the stages of a region follow the latencies of its parts. -/
def balances (r : Region) : Bool :=
  match r.kind with
  | .func f => f.directives.balance
  | _ => false

/-- The number of stages into which a region groups its `parts` parts. A dataflow node makes each
    part a stage; a function follows its directive; another region makes each part a stage only if
    it is annotated so. -/
def stages (r : Region) (parts : Nat) : Nat :=
  let n := max parts 1
  match r.kind with
  | .dataflow => n
  | .func f => Count.clamp 1 n f.directives.dataflow
  | _ => if r.composition = some .dataflow then n else 1

end Region

/-! ## 4. Arrays -/

/-- Where an array lives: in memory on the chip, or outside, from where loops that are cut into
    tiles copy it in. -/
inductive Storage where
  | onChip
  | external
deriving DecidableEq, Repr

namespace Storage

/-- The name of a place. -/
def name : Storage → String
  | onChip => "local"
  | external => "external"

/-- The place with a name. -/
def ofName? (s : String) : Option Storage := [onChip, external].find? fun p => p.name = s

end Storage

/-- An array: its extents, the width of its elements, the region whose lifetime it shares (the
    root if none is given), and the number of banks into which its last dimension is split. -/
structure ArrayDecl where
  name : String
  shape : List Nat
  bits : Nat := 32
  storage : Storage := .onChip
  scope : Option RegionId := none
  partition : Nat := 1
deriving DecidableEq, Repr

namespace ArrayDecl

/-- The number of elements. -/
def elements (a : ArrayDecl) : Nat := Count.product a.shape

/-- The extent of the last dimension. -/
def lastExtent (a : ArrayDecl) : Nat := a.shape.getLast?.getD 1

end ArrayDecl

end DesignSpace
