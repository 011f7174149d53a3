/-
  Subject:   TYPED READING of JSON in one pass over its tokens. A reader for a type takes the
             tokens of one value and leaves the rest; the first fault on the way is the answer.

  * `Fault`: the text is no JSON, or it is JSON of another shape;
  * `Reader.text`, `natural`, `flag`, `optional`, `choice`, `list`: readers of simple shapes;
  * `Reader.object`, `Reader.record`: members of an object in any order, each at most once;
  * `Reader.value`, `Reader.skip`: any value, kept or passed over;
  * `Reader.document`: one value and nothing behind it.
-/
import DesignSpace.Json.Value
import DesignSpace.Keyed

namespace DesignSpace.Json

/-! ## 1. Faults and steps -/

/-- Why a text could not be read as a type. -/
inductive Fault where
  /-- The text is no JSON, or it ends early. -/
  | malformed
  /-- The text is JSON as far as it was read, and does not have the shape of the type. -/
  | mismatch
deriving DecidableEq, Repr

/-- The text of a fault. -/
def Fault.message : Fault → String
  | malformed => "not a JSON text"
  | mismatch => "the JSON text has another shape"

/-- A reader takes tokens from the front. -/
abbrev Reader (α : Type) := StateT (List Token) (Except Fault) α

/-- The fault of a value that starts with these tokens and has the wrong shape. -/
def misfit : List Token → Fault
  | .openObject :: _ | .openArray :: _ | .null :: _ | .bool _ :: _ | .number _ :: _
  | .text _ :: _ => .mismatch
  | _ => .malformed

namespace Reader

/-- Fails with a shape that does not match. -/
def mismatch {α : Type} : Reader α := fun _ => .error .mismatch

/-- A closing bracket or a colon. -/
def closeArray : Reader Unit
  | .closeArray :: rest => .ok ((), rest)
  | _ => .error .malformed

@[inherit_doc closeArray]
def colon : Reader Unit
  | .colon :: rest => .ok ((), rest)
  | _ => .error .malformed

/-! ## 2. Simple shapes -/

/-- A string. -/
def text : Reader String
  | .text s :: rest => .ok (s, rest)
  | ts => .error (misfit ts)

/-- A truth value. -/
def flag : Reader Bool
  | .bool b :: rest => .ok (b, rest)
  | ts => .error (misfit ts)

/-- A whole number from zero to `top`. -/
def natural (top : Nat) : Reader Nat
  | .number (.natural n) :: rest => if n ≤ top then .ok (n, rest) else .error .mismatch
  | ts => .error (misfit ts)

/-- A count. -/
def count : Reader Nat := natural Count.limit

/-- A value, or `null` for none. -/
def optional {α : Type} (r : Reader α) : Reader (Option α)
  | .null :: rest => .ok (none, rest)
  | ts => (do return some (← r)) ts

/-- One of several names: a string, or an object with the name as its only key and nothing as
    its value. `null` is nothing; in a text `held` back and read again, so is an empty object.
    What is neither string nor object is no JSON here, and neither is an object that does not
    start with a string. -/
def choice {α : Type} (named : String → Option α) (held : Bool) : Reader α
  | .text s :: rest =>
    match named s with
    | some a => .ok (a, rest)
    | none => .error .mismatch
  | .openObject :: .text s :: rest =>
    match named s with
    | none => .error .mismatch
    | some a =>
      match rest with
      | .colon :: .null :: .closeObject :: rest => .ok (a, rest)
      | .colon :: .null :: _ => .error .malformed
      | .colon :: .openObject :: .closeObject :: .closeObject :: rest =>
        if held then .ok (a, rest) else .error .mismatch
      | .colon :: rest => .error (misfit rest)
      | _ => .error .malformed
  | _ => .error .malformed

/-! ## 3. Lists -/

/-- Whether an item follows; a comma in front of it is taken, the closing bracket is left. -/
def moreItems (first : Bool) : Reader Bool
  | [] => .error .malformed
  | .closeArray :: rest => .ok (false, .closeArray :: rest)
  | .comma :: rest =>
    if first then .ok (true, .comma :: rest)
    else
      match rest with
      | [] => .error .malformed
      | .closeArray :: _ => .error .malformed
      | rest => .ok (true, rest)
  | ts => if first then .ok (true, ts) else .error .malformed

/-- Items up to the closing bracket, at most `fuel` of them. -/
def itemsFrom {α : Type} (r : Reader α) : (fuel : Nat) → (first : Bool) → Reader (List α)
  | 0, _ => fun _ => .error .malformed
  | fuel + 1, first => do
    if ← moreItems first then
      let a ← r
      let rest ← itemsFrom r fuel false
      return a :: rest
    else return []

/-- A list of values of one shape. -/
def list {α : Type} (r : Reader α) : Reader (List α)
  | .openArray :: rest =>
    (do
      let items ← itemsFrom r (rest.length + 1) true
      closeArray
      return items) rest
  | ts => .error (misfit ts)

/-! ## 4. Objects -/

/-- The name of the next member, or none behind the closing brace, which is taken. -/
def nextName (first : Bool) : Reader (Option String)
  | .closeObject :: rest => .ok (none, rest)
  | .text s :: rest => if first then .ok (some s, rest) else .error .malformed
  | .comma :: .text s :: rest => if first then .error .malformed else .ok (some s, rest)
  | _ => .error .malformed

/-- A member of an object: its name, and how its value changes what was read before it. -/
structure Field (α : Type) where
  name : String
  read : α → Reader α

/-- Members up to the closing brace, at most `fuel` of them, and the names of the fields that
    were met. A field that comes again is a mismatch as soon as its name is read, and so is a name
    that is no field where `stray` has no reader for it. -/
def membersFrom {α : Type} (fields : List (Field α)) (stray : String → Option (α → Reader α)) :
    (fuel : Nat) → (first : Bool) → (met : List String) → α → Reader (List String × α)
  | 0, _, _, _ => fun _ => .error .malformed
  | fuel + 1, first, met, a => do
    match ← nextName first with
    | none => return (met, a)
    | some name =>
      match fields.find? fun f => f.name = name with
      | some f =>
        if name ∈ met then mismatch
        else
          colon
          let a ← f.read a
          membersFrom fields stray fuel false (name :: met) a
      | none =>
        match stray name with
        | none => mismatch
        | some read =>
          colon
          let a ← read a
          membersFrom fields stray fuel false met a

/-- The required fields are among those met. -/
def complete {α : Type} (required met : List String) (a : α) : Reader α :=
  if required.all fun name => met.contains name then return a else mismatch

/-- An object; fields that are not required keep what `blank` holds. -/
def object {α : Type} (fields : List (Field α)) (required : List String)
    (stray : String → Option (α → Reader α)) (blank : α) : Reader α
  | .openObject :: rest =>
    (do
      let (met, a) ← membersFrom fields stray (rest.length + 1) true [] blank
      complete required met a) rest
  | ts => .error (misfit ts)

/-- The fields in their order, as many as there are items. -/
def placesFrom {α : Type} : List (Field α) → (first : Bool) → (met : List String) → α →
    Reader (List String × α)
  | [], _, met, a => return (met, a)
  | f :: fields, first, met, a => do
    if ← moreItems first then
      let a ← f.read a
      placesFrom fields false (f.name :: met) a
    else return (met, a)

/-- A record: an object, or the list of its fields in their order, where the last ones may be
    missing. -/
def record {α : Type} (fields : List (Field α)) (required : List String)
    (stray : String → Option (α → Reader α)) (blank : α) : Reader α
  | .openArray :: rest =>
    (do
      let (met, a) ← placesFrom fields true [] blank
      let a ← complete required met a
      closeArray
      return a) rest
  | ts => object fields required stray blank ts

/-! ## 5. Any value -/

mutual

/-- One value, passed over. -/
def skipFrom : (fuel : Nat) → Reader Unit
  | 0 => fun _ => .error .malformed
  | fuel + 1 => fun ts =>
    match ts with
    | .openArray :: rest => skipItems fuel true rest
    | .openObject :: rest => skipMembers fuel true rest
    | .null :: rest | .bool _ :: rest | .number _ :: rest | .text _ :: rest | .unpaired :: rest
    | .huge :: rest => .ok ((), rest)
    | _ => .error .malformed

/-- Items and the closing bracket, passed over. -/
def skipItems : (fuel : Nat) → (first : Bool) → Reader Unit
  | 0, _ => fun _ => .error .malformed
  | fuel + 1, first => do
    if ← moreItems first then
      skipFrom fuel
      skipItems fuel false
    else closeArray

/-- Members and the closing brace, passed over. -/
def skipMembers : (fuel : Nat) → (first : Bool) → Reader Unit
  | 0, _ => fun _ => .error .malformed
  | fuel + 1, first => fun ts =>
    let behindName (rest : List Token) : Except Fault (Unit × List Token) :=
      (do
        colon
        skipFrom fuel
        skipMembers fuel false) rest
    match first, ts with
    | _, .closeObject :: rest => .ok ((), rest)
    | true, .text _ :: rest | true, .unpaired :: rest => behindName rest
    | false, .comma :: .text _ :: rest | false, .comma :: .unpaired :: rest => behindName rest
    | _, _ => .error .malformed

end

/-- One value, passed over. What is complete as text may be passed over to any depth. -/
def skip : Reader Unit := fun ts => skipFrom (2 * ts.length + 2) ts

mutual

/-- One value with at most `room` brackets around its parts. -/
def valueFrom : (fuel room : Nat) → Reader Value
  | 0, _ => fun _ => .error .malformed
  | fuel + 1, room => fun ts =>
    match ts with
    | .openArray :: rest =>
      match room with
      | 0 => .error .malformed
      | room + 1 => (do return Value.list (← valueItems fuel room true)) rest
    | .openObject :: rest =>
      match room with
      | 0 => .error .malformed
      | room + 1 => (do return Value.object (← valueMembers fuel room true [])) rest
    | .null :: rest => .ok (.null, rest)
    | .bool b :: rest => .ok (.bool b, rest)
    | .number n :: rest => .ok (.number n, rest)
    | .text s :: rest => .ok (.text s, rest)
    | _ => .error .malformed

/-- Items and the closing bracket. -/
def valueItems : (fuel room : Nat) → (first : Bool) → Reader (List Value)
  | 0, _, _ => fun _ => .error .malformed
  | fuel + 1, room, first => do
    if ← moreItems first then
      let v ← valueFrom fuel room
      let vs ← valueItems fuel room false
      return v :: vs
    else
      closeArray
      return []

/-- Members and the closing brace, added to the members before. -/
def valueMembers : (fuel room : Nat) → (first : Bool) → List (String × Value) →
    Reader (List (String × Value))
  | 0, _, _, _ => fun _ => .error .malformed
  | fuel + 1, room, first, before => do
    match ← nextName first with
    | none => return before
    | some name =>
      colon
      let v ← valueFrom fuel room
      valueMembers fuel room false (Keyed.insert before name v)

end

/-- One value with at most `room` brackets around its parts. The members of its objects stand in
    ascending order, and of two members with one name the later one counts. -/
def value (room : Nat) : Reader Value := fun ts => valueFrom (2 * ts.length + 2) room ts

/-- The tokens of one value, held back for another reader. -/
def slice (room : Nat) : Reader (List Token) := fun ts =>
  match value room ts with
  | .ok (_, rest) => .ok (ts.take (ts.length - rest.length), rest)
  | .error f => .error f

/-- An object whose names are free, with values of one shape. -/
def assoc {α : Type} (r : Reader α) : Reader (List (String × α)) :=
  object [] [] (fun name => some fun before => do return Keyed.insert before name (← r)) []

/-! ## 6. Documents -/

/-- The number of brackets that may stand around a part of a document. -/
def depth : Nat := 127

/-- One value and nothing behind it. -/
def whole {α : Type} (r : Reader α) (ts : List Token) : Except Fault α :=
  match r ts with
  | .ok (a, []) => .ok a
  | .ok _ => .error .malformed
  | .error f => .error f

/-- A text that is one value. -/
def document {α : Type} (r : Reader α) (s : String) : Except Fault α :=
  whole r (Token.scan s.toList)

/-- Tokens held back and read again: whatever does not fit is a mismatch. -/
def heldBack {α : Type} (r : Reader α) (ts : List Token) : Reader α := fun rest =>
  match whole r ts with
  | .ok a => .ok (a, rest)
  | .error _ => .error .mismatch

end Reader

/-- A text as a value. -/
def Value.parse (s : String) : Except Fault Value := Reader.document (Reader.value Reader.depth) s

end DesignSpace.Json
