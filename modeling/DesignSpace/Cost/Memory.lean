/-
  Subject:   THE COST OF MEMORY: how many ports a step of accesses keeps busy, how much of an array
             one tile of a loop touches, and the buffers that hold it.

  * `CostModel.pressure`: interval and ports of the accesses of one step;
  * `Nest.tileFootprint`: the elements of an array that one tile touches;
  * `Context.tileBuffers`: memory and transfer cycles of the buffers of a loop;
  * `Design.scopedStorage`: the memory of the arrays that live as long as a region.
-/
import DesignSpace.Cost.Operation
import DesignSpace.Cost.Context
import DesignSpace.Stages

namespace DesignSpace

/-! ## 1. Ports -/

/-- An access as it is issued in one step: the array, how many copies of the access differ, and
    whether these go to different banks. -/
structure Issue where
  array : String
  copies : Nat
  spread : Bool
deriving DecidableEq, Repr

/-- An access as it is issued in a context. -/
def Issue.ofAccess (c : Context) (a : Access) : Issue := ⟨a.array, c.replication a, c.spreads a⟩

/-- The cycles between the steps that memory allows, and the ports in use. -/
structure Pressure where
  interval : Nat
  ports : Nat
deriving DecidableEq, Repr

namespace CostModel

/-- The ports that an array offers. A bank on the chip offers its ports to the accesses that are
    spread over the banks; without any such access one bank serves them all. -/
def availablePorts (m : CostModel) (c : Context) (a : ArrayDecl) (spread : Bool) : Nat :=
  if c.isOnChip a then Count.mul (if spread then max a.partition 1 else 1) m.portsPerBank
  else m.externalPorts

/-- The copies and the ports of one array, where that is declared. -/
def demandOn (m : CostModel) (arrays : List ArrayDecl) (c : Context) (issues : List Issue)
    (name : String) : Option (Nat × Nat) :=
  (arrays.find? fun a => a.name = name).map fun a =>
    let own := issues.filter fun i => i.array = name
    (Count.sum (own.map Issue.copies), m.availablePorts c a (own.any Issue.spread))

/-- The interval that the busiest array allows, and the ports in use on all arrays. -/
def pressure (m : CostModel) (arrays : List ArrayDecl) (c : Context) (issues : List Issue) :
    Pressure :=
  let demands := (issues.map Issue.array).eraseDups.filterMap (m.demandOn arrays c issues)
  { interval := (demands.map fun d => Count.ceilDiv d.1 d.2).foldl max 1
    ports := Count.sum (demands.map fun d => min d.1 d.2) }

end CostModel

/-! ## 2. Tiles -/

namespace Nest

/-- The values that a variable takes within one tile of the loop over `iv`: the tile itself, the
    trip count of a loop inside or, where that is not known, the whole extent. A variable of a
    loop outside stands still. -/
def spanOf (ranges : List (String × Option Nat)) (iv : String) (tile extent : Nat) (v : String) :
    Nat :=
  if v = iv then tile
  else
    match Keyed.get? ranges v with
    | some (some trip) => trip
    | some none => extent
    | none => 1

/-- The elements that one tile touches along one dimension, from the variables of its
    subscripts. -/
def dimensionFootprint (ranges : List (String × Option Nat)) (iv : String) (tile extent : Nat)
    (names : List String) : Nat :=
  if names.isEmpty then 1
  else
    let span := Count.sum (names.map (spanOf ranges iv tile extent))
    Count.clamp 1 (max extent 1) (span - (names.length - 1))

/-- The variables in the subscripts of one dimension. -/
def variablesAt (accesses : List Access) (dimension : Nat) : List String :=
  (accesses.flatMap fun a => (a.index[dimension]?.map Subscript.names).getD []).eraseDups

/-- The elements of an array that one tile of a loop touches; all of them outside of loops. -/
def tileFootprint (n : Nest) (a : ArrayDecl) : Nat :=
  match n.region.loop? with
  | none => a.elements
  | some l =>
    let tile := l.effectiveTile.getD 1
    let own := n.accesses.filter fun x => x.array = a.name
    Count.product (a.shape.mapIdx fun dimension extent =>
      dimensionFootprint n.ranges l.iv tile extent (variablesAt own dimension))

end Nest

/-- Memory for the tiles of a loop, and the cycles to fill and to empty it for one tile. -/
structure Buffers where
  storage : Nat
  transfer : Nat
deriving DecidableEq, Repr

/-- The buffers of a nest: one for every array that it copies onto the chip. Elements are copied in
    if the nest reads the array, and out if it writes it. -/
def Context.tileBuffers (c : Context) (arrays : List ArrayDecl) (n : Nest) : Buffers :=
  let buffered := (c.promotions arrays n).map fun a => (a, n.tileFootprint a)
  let directions (a : ArrayDecl) : Nat :=
    [AccessKind.read, AccessKind.write].countP fun k =>
      n.accesses.any fun x => x.array = a.name && x.kind == k
  { storage := Count.sum (buffered.map fun e => storageElements e.2 e.1.bits e.1.partition)
    transfer := Count.sum (buffered.map fun e => Count.mul e.2 (directions e.1)) }

/-- The extra cycles of every tile of a loop cut into tiles: filling and emptying its buffers, and
    two cycles to start. -/
def Loop.tileOverhead (l : Loop) (b : Buffers) : Nat :=
  if l.isTiled then Count.add b.transfer 2 else 0

/-! ## 3. Scopes -/

namespace Design

/-- The stages of a nest that access an array. -/
def touchingStages (children : List Nest) (stages : List Span) (name : String) : Nat :=
  stages.countP fun s =>
    (s.slice children).any fun child => child.accesses.any fun x => x.array = name

/-- The memory of the arrays on the chip that live as long as a region. An array that several
    stages access is there twice. -/
def scopedStorage (d : Design) (n : Nest) (stages : List Span) : Nat :=
  let own := (d.scopedTo n.region.id).filter fun a => a.storage == .onChip
  Count.sum (own.map fun a =>
    if 1 < touchingStages n.children stages a.name then Count.mul a.storageElements 2
    else a.storageElements)

end Design

end DesignSpace
