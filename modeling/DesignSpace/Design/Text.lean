/-
  Subject:   DESIGNS AS JSON TEXTS. A text holds a listing: a name, region records and arrays.

  * `Listing.reader`: the listing in a text. A region record is held back until it is complete,
    and its members are read again as those of its kind;
  * `Listing.value`: a listing as a JSON value;
  * `Design.parse`: the design in a text, or why there is none;
  * `Design.dump`: a design as an indented text.
-/
import DesignSpace.Design.Listing
import DesignSpace.Json.Reader

namespace DesignSpace

open Json (Value Token Reader)
open Json.Reader (Field)

/-- Why a text holds no design. -/
inductive DesignError where
  | json (fault : Json.Fault)
  | defect (defect : Defect)
deriving DecidableEq, Repr

/-- The text of an error. -/
def DesignError.message : DesignError → String
  | json f => "Failed to parse module: " ++ f.message
  | defect d => "Invalid module: " ++ d.message

/-! ## 1. Reading -/

/-- Unknown members are passed over. -/
def skipStray {α : Type} (_ : String) : Option (α → Reader α) :=
  some fun a => do
    Json.Reader.skip
    return a

/-- The largest width of a word, `2 ^ 32 - 1`. -/
def widthLimit : Nat := 4294967295

namespace Operation

/-- An operation; its width is thirty-two bits unless given. -/
def reader : Reader Operation :=
  Json.Reader.record
    [⟨"kind", fun o => do return { o with kind := ← Json.Reader.choice OpKind.ofName? true }⟩,
     ⟨"bits", fun o => do return { o with bits := ← Json.Reader.natural widthLimit }⟩]
    ["kind"] skipStray ⟨.add, 32⟩

/-- An operation as a value. -/
def value (o : Operation) : Value := .object [("kind", o.kind.name), ("bits", o.bits)]

end Operation

namespace Subscript

/-- A subscript. -/
def reader : Reader Subscript := do
  match parse? (← Json.Reader.text) with
  | some s => return s
  | none => Json.Reader.mismatch

end Subscript

namespace Access

/-- An access. -/
def reader : Reader Access :=
  Json.Reader.record
    [⟨"array", fun a => do return { a with array := ← Json.Reader.text }⟩,
     ⟨"kind", fun a => do return { a with kind := ← Json.Reader.choice AccessKind.ofName? true }⟩,
     ⟨"index", fun a => do return { a with index := ← Json.Reader.list Subscript.reader }⟩]
    ["array", "kind", "index"] skipStray ⟨"", .read, []⟩

/-- An access as a value. -/
def value (a : Access) : Value :=
  .object [("array", a.array), ("kind", a.kind.name),
    ("index", .list (a.index.map fun s => .text s.text))]

end Access

namespace Block

/-- The members of a block. -/
def reader : Reader Block :=
  Json.Reader.record
    [⟨"ops", fun b => do return { b with ops := ← Json.Reader.list Operation.reader }⟩,
     ⟨"accesses", fun b => do return { b with accesses := ← Json.Reader.list Access.reader }⟩]
    [] skipStray {}

/-- The members of a block as values. -/
def members (b : Block) : List (String × Value) :=
  [("ops", .list (b.ops.map Operation.value)), ("accesses", .list (b.accesses.map Access.value))]

end Block

namespace Trip

/-- A trip count: a number, or the name of one. -/
def reader : Reader Trip
  | .number (.natural n) :: rest => .ok (.static n, rest)
  | .text s :: rest => .ok (.symbolic s, rest)
  | _ => .error .mismatch

/-- A trip count as a value. -/
def value : Trip → Value
  | static n => n
  | symbolic s => s

end Trip

namespace LoopDirectives

/-- The directives of a loop. -/
def reader : Reader LoopDirectives :=
  Json.Reader.record
    [⟨"pipeline", fun d => do return { d with pipeline := ← Json.Reader.flag }⟩,
     ⟨"unroll", fun d => do return { d with unroll := ← Json.Reader.count }⟩,
     ⟨"tile", fun d => do return { d with tile := ← Json.Reader.optional Json.Reader.count }⟩]
    [] skipStray {}

/-- The directives of a loop as a value. -/
def value (d : LoopDirectives) : Value :=
  .object ([("pipeline", .bool d.pipeline), ("unroll", .ofNat d.unroll)] ++
    match d.tile with
    | some t => [("tile", .ofNat t)]
    | none => [])

end LoopDirectives

namespace Loop

/-- The members of a loop. -/
def reader : Reader Loop :=
  Json.Reader.record
    [⟨"iv", fun l => do return { l with iv := ← Json.Reader.text }⟩,
     ⟨"trip", fun l => do return { l with trip := ← Trip.reader }⟩,
     ⟨"directives", fun l => do return { l with directives := ← LoopDirectives.reader }⟩]
    ["iv", "trip"] skipStray ⟨"", .static 0, {}⟩

/-- The members of a loop as values. -/
def members (l : Loop) : List (String × Value) :=
  [("iv", l.iv), ("trip", l.trip.value), ("directives", l.directives.value)]

end Loop

namespace FuncDirectives

/-- The directives of a function. -/
def reader : Reader FuncDirectives :=
  Json.Reader.record
    [⟨"dataflow", fun d => do return { d with dataflow := ← Json.Reader.count }⟩,
     ⟨"balance", fun d => do return { d with balance := ← Json.Reader.flag }⟩]
    [] skipStray {}

/-- The directives of a function as a value. -/
def value (d : FuncDirectives) : Value :=
  .object ([("dataflow", .ofNat d.dataflow)] ++
    if d.balance then [("balance", .bool true)] else [])

end FuncDirectives

namespace Func

/-- The members of a function. -/
def reader : Reader Func :=
  Json.Reader.record
    [⟨"name", fun f => do return { f with name := ← Json.Reader.text }⟩,
     ⟨"directives", fun f => do return { f with directives := ← FuncDirectives.reader }⟩]
    ["name"] skipStray ⟨"", {}⟩

/-- The members of a function as values. -/
def members (f : Func) : List (String × Value) :=
  [("name", f.name), ("directives", f.directives.value)]

end Func

namespace Kind

/-- The reader for the members of a kind, chosen by the tokens of its name or of its place among
    the kinds. -/
def readerOf? : List Token → Option (Reader Kind)
  | [.text s] => named s
  | [.number (.natural i)] => ["block", "loop", "func", "dataflow"][i]?.bind named
  | _ => none
where
  /-- The reader for the members of a kind by name. -/
  named (s : String) : Option (Reader Kind) :=
    if s = "block" then some do return .block (← Block.reader)
    else if s = "loop" then some do return .loop (← Loop.reader)
    else if s = "func" then some do return .func (← Func.reader)
    else if s = "dataflow" then
      some do
        Json.Reader.skip
        return .dataflow
    else none

/-- The members of a kind as values. -/
def members : Kind → List (String × Value)
  | block b => b.members
  | loop l => l.members
  | func f => f.members
  | dataflow => []

end Kind

namespace Record

/-- A region record on the way: what is known of it, and the tokens held back for its kind. -/
structure Draft where
  id : RegionId := 0
  parent : Option RegionId := none
  composition : Option Composition := none
  held : List (String × List Token) := []

/-- Members as the tokens of an object. -/
def rejoin (members : List (String × List Token)) : List Token :=
  .openObject ::
    (List.intercalate [.comma] (members.map fun m => .text m.1 :: .colon :: m.2) ++
      [.closeObject])

/-- The members of a record that do not depend on its kind, and the tokens of all others. -/
def draftReader : Reader Draft :=
  Json.Reader.object
    [⟨"id", fun d => do return { d with id := ← Json.Reader.count }⟩,
     ⟨"parent", fun d => do return { d with parent := ← Json.Reader.optional Json.Reader.count }⟩,
     ⟨"composition", fun d => do
        return { d with
          composition :=
            ← Json.Reader.optional (Json.Reader.choice Composition.ofName? false) }⟩]
    ["id"]
    (fun name => some fun d => do
      return { d with held := d.held ++ [(name, ← Json.Reader.slice (Json.Reader.depth - 3))] })
    {}

/-- A region record. Its kind is named once, anywhere among its members. -/
def reader : Reader Record := do
  let d ← draftReader
  match d.held.filter fun m => m.1 = "kind" with
  | [tag] =>
    match Kind.readerOf? tag.2 with
    | some r =>
      let kind ← Json.Reader.heldBack r (rejoin (d.held.filter fun m => m.1 ≠ "kind"))
      return ⟨⟨d.id, kind, d.composition⟩, d.parent⟩
    | none => Json.Reader.mismatch
  | _ => Json.Reader.mismatch

/-- A region record as a value. -/
def value (r : Record) : Value :=
  .object (("id", .ofNat r.id) ::
    ("parent", match r.parent with
      | some p => .ofNat p
      | none => .null) ::
    ((match r.region.composition with
      | some c => [("composition", .text c.name)]
      | none => []) ++
    ("kind", .text r.region.kind.name) :: r.region.kind.members))

end Record

namespace ArrayDecl

/-- An array. -/
def reader : Reader ArrayDecl :=
  Json.Reader.record
    [⟨"name", fun a => do return { a with name := ← Json.Reader.text }⟩,
     ⟨"shape", fun a => do return { a with shape := ← Json.Reader.list Json.Reader.count }⟩,
     ⟨"bits", fun a => do return { a with bits := ← Json.Reader.natural widthLimit }⟩,
     ⟨"storage", fun a => do
        return { a with storage := ← Json.Reader.choice Storage.ofName? false }⟩,
     ⟨"scope", fun a => do return { a with scope := ← Json.Reader.optional Json.Reader.count }⟩,
     ⟨"partition", fun a => do return { a with partition := ← Json.Reader.count }⟩]
    ["name", "shape"] skipStray ⟨"", [], 32, .onChip, none, 1⟩

/-- An array as a value. -/
def value (a : ArrayDecl) : Value :=
  .object ([("name", .text a.name), ("shape", .list (a.shape.map Value.ofNat)),
    ("bits", .ofNat a.bits), ("storage", .text a.storage.name)] ++
    (match a.scope with
      | some s => [("scope", .ofNat s)]
      | none => []) ++
    [("partition", .ofNat a.partition)])

end ArrayDecl

namespace Listing

/-- A listing. -/
def reader : Reader Listing :=
  Json.Reader.record
    [⟨"name", fun l => do return { l with name := ← Json.Reader.text }⟩,
     ⟨"regions", fun l => do return { l with records := ← Json.Reader.list Record.reader }⟩,
     ⟨"arrays", fun l => do return { l with arrays := ← Json.Reader.list ArrayDecl.reader }⟩]
    ["name", "regions"] skipStray ⟨"", [], []⟩

/-- A listing as a value. -/
def value (l : Listing) : Value :=
  .object [("name", l.name), ("regions", .list (l.records.map Record.value)),
    ("arrays", .list (l.arrays.map ArrayDecl.value))]

end Listing

/-! ## 2. Designs -/

/-- The design in a text. -/
def Design.parse (s : String) : Except DesignError Design := do
  let l ← (Json.Reader.document Listing.reader s).mapError .json
  l.design.mapError .defect

/-- A design as an indented text. -/
def Design.dump (d : Design) : String := d.listing.value.pretty

end DesignSpace
