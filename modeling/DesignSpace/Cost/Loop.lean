/-
  Subject:   THE COST OF BLOCKS AND LOOPS, each by itself.

  * `CostModel.blockMetrics`: a block, with the copies that loops around it make of it;
  * `Forest.flatten`: the blocks below a loop whose inner loops are laid out completely;
  * `CostModel.flatLoopMetrics`: a loop whose iteration is one straight-line body;
  * `CostModel.outerLoopMetrics`: a loop around a body whose metrics are known.
-/
import DesignSpace.Cost.Memory

namespace DesignSpace

/-! ## 1. Blocks -/

namespace CostModel

/-- The cycles of an access; an array that is not declared counts as one on the chip. -/
def issueCycles (m : CostModel) (arrays : List ArrayDecl) (c : Context) (a : Access) : Nat :=
  let onChip := match arrays.find? fun x => x.name = a.array with
    | some x => c.isOnChip x
    | none => true
  m.accessCycles a.kind onChip

/-- The cycles of one copy of a block, apart from waiting for memory. -/
def straightLine (m : CostModel) (arrays : List ArrayDecl) (c : Context) (b : Block) : Nat :=
  Count.add (Count.sum (b.ops.map m.opCycles))
    (Count.sum (b.accesses.map (m.issueCycles arrays c)))

/-- The units of one copy of a block. -/
def units (m : CostModel) (b : Block) : Nat := Count.sum (b.ops.map m.opUnits)

/-- The metrics of a block: its copies run side by side and share the memory. -/
def blockMetrics (m : CostModel) (arrays : List ArrayDecl) (c : Context) (b : Block) : Metrics :=
  let p := m.pressure arrays c (b.accesses.map (Issue.ofAccess c))
  let latency := Count.add (m.straightLine arrays c b) (p.interval - 1)
  { latency := .known latency
    interval := .known latency
    resources := { computeUnits := Count.mul (m.units b) c.copies, memoryPorts := p.ports } }

end CostModel

/-! ## 2. Reductions and flat bodies -/

/-- Whether a loop over a variable carries a reduction: an access writes an array where the
    variable does not matter, and the same array is read. -/
def carriesReduction (accesses : List Access) (iv : String) : Bool :=
  accesses.any fun w =>
    w.kind == .write && !w.uses iv &&
      accesses.any fun r => r.kind == .read && r.array == w.array

/-- A block of a body that is laid out flat: the context of its copies, and how many of them wait
    for each other. -/
structure FlatBlock where
  body : Block
  context : Context
  chain : Nat
deriving DecidableEq, Repr

/-- The blocks of a forest whose loops are all laid out flat. A loop that carries a reduction
    makes the blocks below it wait for each other. -/
def Forest.flatten (c : Context) (chain : Nat) : Forest → List FlatBlock
  | .nil => []
  | .cons r below after =>
    (match r.kind with
      | .block b => [⟨b, c, chain⟩]
      | .loop l =>
        let trip := l.trip.bounded.getD 1
        let chain :=
          if carriesReduction (Nest.mk r below).accesses l.iv then Count.mul chain trip else chain
        below.flatten (c.withFactor l.iv trip) chain
      | .func _ => below.flatten c chain
      | .dataflow => below.flatten c chain) ++ after.flatten c chain

/-! ## 3. Loops -/

/-- `(iterations) * interval + depth - 1`: the cycles of iterations that overlap. -/
def pipelinedLatency (iterations interval depth : Nat) : Nat :=
  Count.add (Count.mul iterations interval) depth - 1

/-- One iteration of a loop with a flat body: its cycles without waiting, its units, what it asks
    of memory, and whether the next iteration needs its result. -/
structure FlatBody where
  depth : Nat
  units : Nat
  pressure : Pressure
  recurrent : Bool
deriving DecidableEq, Repr

/-- The cycles of a list of blocks in a flat body, their chains included; at least one. -/
def CostModel.flatDepth (m : CostModel) (arrays : List ArrayDecl) (c : Context)
    (blocks : List FlatBlock) : Nat :=
  max (Count.sum (blocks.map fun b => Count.mul (m.straightLine arrays c b.body) b.chain)) 1

/-- The flat body of a loop, where `c` is the context below the loop. -/
def CostModel.flatBody (m : CostModel) (arrays : List ArrayDecl) (c : Context) (iv : String)
    (below : Forest) : FlatBody :=
  let blocks := below.flatten c 1
  { depth := m.flatDepth arrays c blocks
    units := Count.sum (blocks.map fun b => Count.mul (m.units b.body) b.context.copies)
    pressure := m.pressure arrays c
      (blocks.flatMap fun b => b.body.accesses.map (Issue.ofAccess b.context))
    recurrent := carriesReduction (blocks.flatMap fun b => b.body.accesses) iv }

namespace Loop

/-- The cycles between the starts of two iterations. Iterations that do not overlap count as one
    cycle apart. -/
def initiation (l : Loop) (b : FlatBody) : Nat :=
  if l.directives.pipeline then
    let recurrence := if b.recurrent then Count.mul (max l.directives.unroll 1) b.depth else 1
    max (max b.pressure.interval recurrence) 1
  else 1

/-- The cycles of one tile. -/
def tileLatency (l : Loop) (b : FlatBody) (tile : Nat) : Nat :=
  let iterations := tile / max l.directives.unroll 1
  if l.directives.pipeline then pipelinedLatency iterations (l.initiation b) b.depth
  else Count.mul iterations (Count.add b.depth (b.pressure.interval - 1))

end Loop

namespace CostModel

/-- The metrics of a loop with a flat body: tiles one after the other. In a pipelined loop the
    iterations of a tile overlap and share units. `c` is the context of the loop. -/
def flatLoopMetrics (m : CostModel) (arrays : List ArrayDecl) (c : Context) (n : Nest) : Metrics :=
  match n.region.loop? with
  | none => .empty
  | some l =>
    let body := m.flatBody arrays (c.enter arrays n) l.iv n.below
    let buffers := c.tileBuffers arrays n
    let interval := l.initiation body
    let resources : Resources :=
      { computeUnits :=
          if l.directives.pipeline then Count.ceilDiv body.units interval else body.units
        memoryPorts := body.pressure.ports
        storageElements := buffers.storage
        controlUnits := 1 }
    match l.trip.bounded, l.effectiveTile with
    | some trip, some tile =>
      let latency :=
        Count.mul (trip / tile) (Count.add (l.tileLatency body tile) (l.tileOverhead buffers))
      { latency := .known latency
        interval := .known (if l.directives.pipeline then interval else latency)
        resources := resources }
    | _, _ =>
      { latency := .unknown
        interval := if l.directives.pipeline then .known interval else .unknown
        resources := resources }

/-- The metrics of a loop around a body. Iterations laid side by side run in one pass through the
    body. -/
def outerLoopMetrics (arrays : List ArrayDecl) (c : Context) (n : Nest) (body : Metrics) :
    Metrics :=
  match n.region.loop? with
  | none => body
  | some l =>
    let buffers := c.tileBuffers arrays n
    let resources : Resources :=
      { body.resources with
        storageElements := Count.add body.resources.storageElements buffers.storage
        controlUnits := Count.add body.resources.controlUnits 1 }
    match l.trip.bounded, l.effectiveTile with
    | some trip, some tile =>
      let oneTile := (body.latency.scale (tile / max l.directives.unroll 1)).add
        (.known (l.tileOverhead buffers))
      let latency := oneTile.scale (trip / tile)
      ⟨latency, latency, resources⟩
    | _, _ => ⟨.unknown, .unknown, resources⟩

end CostModel

end DesignSpace
