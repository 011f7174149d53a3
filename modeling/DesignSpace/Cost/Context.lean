/-
  Subject:   WHAT ENCLOSING LOOPS IMPOSE on a region: arrays that were copied onto the chip, and
             loops that were unrolled around it.

  * `Context.enter`: the context below a nest, from that of the nest;
  * `Context.promotions`: the arrays that a loop cut into tiles copies onto the chip;
  * `Context.copies`, `replication`: how often a body and an access are laid side by side;
  * `Design.context`: the context of a region in its design.
-/
import DesignSpace.Design.Basic

namespace DesignSpace

/-- What the loops around a region impose on it: the arrays copied onto the chip, and the unroll
    factors by induction variable. -/
structure Context where
  promoted : List String := []
  unrolled : List (String × Nat) := []
deriving DecidableEq, Repr

namespace Context

/-! ## 1. Factors -/

/-- The context with the iterations over a variable laid side by side. -/
def withFactor (c : Context) (iv : String) (factor : Nat) : Context :=
  if 1 < factor then { c with unrolled := Keyed.insert c.unrolled iv factor } else c

/-- The factor of a variable. -/
def factor (c : Context) (iv : String) : Nat := (Keyed.get? c.unrolled iv).getD 1

/-- The copies of a whole body. -/
def copies (c : Context) : Nat := Count.product (c.unrolled.map Prod.snd)

/-- The copies of an access that differ: only the variables in its subscripts count. -/
def replication (c : Context) (a : Access) : Nat :=
  Count.product ((c.unrolled.filter fun e => a.uses e.1).map Prod.snd)

/-- Whether the copies of an access go to different banks. -/
def spreads (c : Context) (a : Access) : Bool := c.unrolled.any fun e => a.lastUses e.1

/-! ## 2. Arrays on the chip -/

/-- Whether an array was copied onto the chip. -/
def isPromoted (c : Context) (name : String) : Bool := c.promoted.contains name

/-- Whether an array is on the chip. -/
def isOnChip (c : Context) (a : ArrayDecl) : Bool :=
  a.storage == .onChip || c.isPromoted a.name

/-- The external arrays that a nest copies onto the chip: those its accesses name, where its
    region is a loop cut into tiles and no loop around it has copied them. -/
def promotions (c : Context) (arrays : List ArrayDecl) (n : Nest) : List ArrayDecl :=
  match n.region.loop? with
  | some l =>
    if l.isTiled then
      let accessed := n.accesses.map Access.array
      arrays.filter fun a =>
        a.storage == .external && accessed.contains a.name && !c.isPromoted a.name
    else []
  | none => []

/-- The context below a nest. -/
def enter (c : Context) (arrays : List ArrayDecl) (n : Nest) : Context :=
  let inside : Context :=
    { c with promoted := c.promoted ++ (c.promotions arrays n).map ArrayDecl.name }
  match n.region.loop? with
  | some l => inside.withFactor l.iv l.directives.unroll
  | none => inside

end Context

/-! ## 3. In a design -/

/-- The context of a region: that below the nests around it. -/
def Design.context (d : Design) (id : RegionId) : Context :=
  (d.above id).foldl (fun c n => c.enter d.arrays n) {}

end DesignSpace
