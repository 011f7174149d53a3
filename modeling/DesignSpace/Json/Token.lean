/-
  Subject:   JSON TOKENS. A text is cut into tokens in one pass; a piece that is no token ends
             the cutting with `Token.broken`, and nobody reads past it.

  * `Token.scan`: the tokens of a text;
  * `Token.broken`: the text is no JSON from here on;
  * `Token.unpaired`, `Token.huge`: a string or a number that is complete as text but names no
    text or no double. Only a reader that skips may pass over them.
-/
import DesignSpace.Decimal.Scaled

namespace DesignSpace.Json

/-! ## 1. Tokens -/

/-- A number by how it is written: a whole number within sixty-four bits, or a double. -/
inductive Number where
  | natural (n : Nat)
  /-- The number `-n` for a positive `n`. -/
  | negative (n : Nat)
  | real (x : Float)

/-- One token of a text. -/
inductive Token where
  | openObject
  | closeObject
  | openArray
  | closeArray
  | comma
  | colon
  | null
  | bool (b : Bool)
  | number (n : Number)
  | text (s : String)
  | unpaired
  | huge
  | broken

namespace Token

/-! ## 2. Numbers -/

/-- A number as written: sign, digits before and after the point, power of ten. -/
structure Numeral where
  negative : Bool
  whole : List Char
  fraction : Option (List Char)
  power : Option Int

/-- The digits of a number before the point: one zero, or digits that start with another one. -/
def scanWhole : List Char → Option (List Char × List Char)
  | '0' :: rest => if (rest.headD ' ').isDigit then none else some (['0'], rest)
  | cs =>
    match cs.takeWhile Char.isDigit with
    | [] => none
    | ds => some (ds, cs.dropWhile Char.isDigit)

/-- The digits after a point, if there is one. -/
def scanFraction : List Char → Option (Option (List Char) × List Char)
  | '.' :: rest =>
    match rest.takeWhile Char.isDigit with
    | [] => none
    | ds => some (some ds, rest.dropWhile Char.isDigit)
  | cs => some (none, cs)

/-- The sign in front of a power of ten. -/
def scanSign : List Char → Bool × List Char
  | '-' :: rest => (true, rest)
  | '+' :: rest => (false, rest)
  | cs => (false, cs)

/-- The power of ten behind an `e`, if there is one. -/
def scanPower : List Char → Option (Option Int × List Char)
  | c :: rest =>
    if c = 'e' ∨ c = 'E' then
      let (negative, digits) := scanSign rest
      match digits.takeWhile Char.isDigit with
      | [] => none
      | ds =>
        let n : Int := Nat.ofDigitChars 10 ds 0
        some (some (if negative then -n else n), digits.dropWhile Char.isDigit)
    else some (none, c :: rest)
  | [] => some (none, [])

/-- A number and the text behind it. -/
def scanNumeral (cs : List Char) : Option (Numeral × List Char) := do
  let (negative, cs) := match cs with
    | '-' :: rest => (true, rest)
    | cs => (false, cs)
  let (whole, cs) ← scanWhole cs
  let (fraction, cs) ← scanFraction cs
  let (power, cs) ← scanPower cs
  return (⟨negative, whole, fraction, power⟩, cs)

/-- The double of a size and a sign. -/
def ofSize (negative : Bool) (x : Float) : Token :=
  if x.isFinite then number (.real (if negative then -x else x)) else huge

/-- A number without point and power is whole where sixty-four bits hold it, with or without a
    sign; all others are doubles, and so is a zero with a sign. Each digit before the point that
    finds no room raises the power of ten by one, and each behind it that finds room lowers it. -/
def ofNumeral (t : Numeral) : Token :=
  let (n, rest) := gather 0 t.whole
  match t.fraction, t.power with
  | none, none =>
    if rest.isEmpty && !t.negative then number (.natural n)
    else if rest.isEmpty && n != 0 && decide (n ≤ twoPow 63) then number (.negative n)
    else ofSize t.negative (scaled n rest.length)
  | fraction, power =>
    let after := fraction.getD []
    let (n, left) := gather n after
    ofSize t.negative (scaled n (power.getD 0 + rest.length + left.length - after.length))

/-! ## 3. Strings -/

/-- A piece of a string: a character, or a sixteen-bit unit given by its number. -/
inductive Piece where
  | char (c : Char)
  | unit (u : Nat)

/-- The value of a hexadecimal digit. -/
def hexValue (c : Char) : Option Nat :=
  if '0' ≤ c ∧ c ≤ '9' then some (c.toNat - 48)
  else if 'a' ≤ c ∧ c ≤ 'f' then some (c.toNat - 87)
  else if 'A' ≤ c ∧ c ≤ 'F' then some (c.toNat - 55)
  else none

/-- The unit of four hexadecimal digits. -/
def hexUnit (a b c d : Char) : Option Nat := do
  let a ← hexValue a
  let b ← hexValue b
  let c ← hexValue c
  let d ← hexValue d
  return ((a * 16 + b) * 16 + c) * 16 + d

/-- The character that a letter behind a backslash stands for. -/
def unescape : Char → Option Char
  | '"' => some '"'
  | '\\' => some '\\'
  | '/' => some '/'
  | 'b' => some '\x08'
  | 'f' => some '\x0c'
  | 'n' => some '\n'
  | 'r' => some '\r'
  | 't' => some '\t'
  | _ => none

/-- The pieces of a string behind its opening quote, and the text behind its closing quote. -/
def scanPieces : List Char → Option (List Piece × List Char)
  | [] => none
  | '"' :: rest => some ([], rest)
  | '\\' :: 'u' :: a :: b :: c :: d :: rest =>
    match hexUnit a b c d, scanPieces rest with
    | some u, some (ps, behind) => some (.unit u :: ps, behind)
    | _, _ => none
  | '\\' :: e :: rest =>
    match unescape e, scanPieces rest with
    | some c, some (ps, behind) => some (.char c :: ps, behind)
    | _, _ => none
  | c :: rest =>
    if c = '\\' ∨ c.toNat < 0x20 then none
    else
      match scanPieces rest with
      | some (ps, behind) => some (.char c :: ps, behind)
      | none => none

/-- Whether a unit is the first half of a pair. -/
def isLeading (u : Nat) : Bool := decide (0xd800 ≤ u) && decide (u < 0xdc00)

/-- Whether a unit is the second half of a pair. -/
def isTrailing (u : Nat) : Bool := decide (0xdc00 ≤ u) && decide (u < 0xe000)

/-- The characters of the pieces; none if half of a pair stands alone. -/
def joinPieces : List Piece → Option (List Char)
  | [] => some []
  | .char c :: rest => (joinPieces rest).map (c :: ·)
  | .unit u :: .unit v :: rest =>
    if isLeading u then
      if isTrailing v then
        (joinPieces rest).map
          (Char.ofNat (0x10000 + (u - 0xd800) * 0x400 + (v - 0xdc00)) :: ·)
      else none
    else if isTrailing u then none
    else (joinPieces (.unit v :: rest)).map (Char.ofNat u :: ·)
  | .unit u :: rest =>
    if isLeading u || isTrailing u then none else (joinPieces rest).map (Char.ofNat u :: ·)

/-- The token of a string. -/
def ofPieces (ps : List Piece) : Token :=
  match joinPieces ps with
  | some cs => text (String.ofList cs)
  | none => unpaired

/-! ## 4. The tokens of a text -/

/-- The first token of a text that starts with neither blank nor bracket, and the rest. -/
def scanWord : List Char → Option (Token × List Char)
  | '"' :: cs => (scanPieces cs).map fun (ps, rest) => (ofPieces ps, rest)
  | 'n' :: 'u' :: 'l' :: 'l' :: rest => some (null, rest)
  | 't' :: 'r' :: 'u' :: 'e' :: rest => some (bool true, rest)
  | 'f' :: 'a' :: 'l' :: 's' :: 'e' :: rest => some (bool false, rest)
  | cs => (scanNumeral cs).map fun (t, rest) => (ofNumeral t, rest)

/-- The single character that is a token. -/
def ofBracket : Char → Option Token
  | '{' => some openObject
  | '}' => some closeObject
  | '[' => some openArray
  | ']' => some closeArray
  | ',' => some comma
  | ':' => some colon
  | _ => none

/-- The characters between tokens. -/
def isSpace (c : Char) : Bool := c == ' ' || c == '\n' || c == '\t' || c == '\r'

/-- The tokens of a text, at most `fuel` steps of it. -/
def scanFrom : (fuel : Nat) → List Char → List Token
  | 0, _ => []
  | _, [] => []
  | fuel + 1, c :: cs =>
    if isSpace c then scanFrom fuel cs
    else
      match ofBracket c with
      | some t => t :: scanFrom fuel cs
      | none =>
        match scanWord (c :: cs) with
        | some (t, rest) => t :: scanFrom fuel rest
        | none => [broken]

/-- The tokens of a text. Each step takes a character at least. -/
def scan (cs : List Char) : List Token := scanFrom cs.length cs

end Token

end DesignSpace.Json
