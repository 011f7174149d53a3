/-
  Subject:   JSON VALUES and their two written forms, on one line and indented.

  * `Value.compact`: no blanks;
  * `Value.pretty`: two blanks of indentation per level, one member or item a line;
  * `escape`: how a character stands in a string.
-/
import DesignSpace.Json.Token
import DesignSpace.Decimal.Shortest

namespace DesignSpace.Json

/-- A JSON value. Members of an object stand in the order in which they are written. -/
inductive Value where
  | null
  | bool (b : Bool)
  | number (n : Number)
  | text (s : String)
  | list (items : List Value)
  | object (members : List (String × Value))

namespace Value

/-- A count as a value. -/
def ofNat (n : Nat) : Value := number (.natural n)

instance : Coe String Value := ⟨text⟩

instance : Coe Nat Value := ⟨ofNat⟩

instance : Coe Bool Value := ⟨bool⟩

/-- The value of a member of an object; of a repeated name the first one. -/
def member? (v : Value) (name : String) : Option Value :=
  match v with
  | object members => (members.find? fun m => m.1 = name).map Prod.snd
  | _ => none

end Value

/-! ## 1. Strings and numbers -/

/-- A digit of a hexadecimal number. -/
def hexDigit (n : Nat) : Char := Nat.digitChar n

/-- A character inside a string. -/
def escape (c : Char) : List Char :=
  if c = '"' then ['\\', '"']
  else if c = '\\' then ['\\', '\\']
  else if c = '\x08' then ['\\', 'b']
  else if c = '\x0c' then ['\\', 'f']
  else if c = '\n' then ['\\', 'n']
  else if c = '\r' then ['\\', 'r']
  else if c = '\t' then ['\\', 't']
  else if c.toNat < 0x20 then
    ['\\', 'u', '0', '0', hexDigit (c.toNat / 16), hexDigit (c.toNat % 16)]
  else [c]

/-- The inside of a string and its closing quote, in front of `rest`. -/
def writeChars (cs rest : List Char) : List Char :=
  match cs with
  | [] => '"' :: rest
  | c :: cs => escape c ++ writeChars cs rest

/-- A string with its quotes, in front of `rest`. -/
def writeText (s : String) (rest : List Char) : List Char := '"' :: writeChars s.toList rest

/-- A number. -/
def Number.chars : Number → List Char
  | natural n => Nat.toDigits 10 n
  | negative n => '-' :: Nat.toDigits 10 n
  | real x => (scientificFloat x).toList

/-! ## 2. On one line -/

mutual

/-- A value on one line, in front of `rest`. -/
def Value.writeCompact : Value → List Char → List Char
  | .null, rest => 'n' :: 'u' :: 'l' :: 'l' :: rest
  | .bool true, rest => 't' :: 'r' :: 'u' :: 'e' :: rest
  | .bool false, rest => 'f' :: 'a' :: 'l' :: 's' :: 'e' :: rest
  | .number n, rest => n.chars ++ rest
  | .text s, rest => writeText s rest
  | .list items, rest => '[' :: writeCompactItems items true rest
  | .object members, rest => '{' :: writeCompactMembers members true rest

/-- Items and the closing bracket. -/
def writeCompactItems : List Value → Bool → List Char → List Char
  | [], _, rest => ']' :: rest
  | v :: vs, first, rest =>
    let body := v.writeCompact (writeCompactItems vs false rest)
    if first then body else ',' :: body

/-- Members and the closing brace. -/
def writeCompactMembers : List (String × Value) → Bool → List Char → List Char
  | [], _, rest => '}' :: rest
  | (name, v) :: ms, first, rest =>
    let body := writeText name (':' :: v.writeCompact (writeCompactMembers ms false rest))
    if first then body else ',' :: body

end

/-- A value on one line. -/
def Value.compact (v : Value) : String := String.ofList (v.writeCompact [])

/-! ## 3. Indented -/

/-- A new line at an indentation level, in front of `rest`. -/
def newline (level : Nat) (rest : List Char) : List Char :=
  '\n' :: (List.replicate (2 * level) ' ' ++ rest)

mutual

/-- A value whose first line stands at a level, in front of `rest`. -/
def Value.writePretty : Value → (level : Nat) → List Char → List Char
  | .list [], _, rest => '[' :: ']' :: rest
  | .list (v :: vs), level, rest =>
    '[' :: newline (level + 1) (v.writePretty (level + 1) (writePrettyItems vs level rest))
  | .object [], _, rest => '{' :: '}' :: rest
  | .object ((name, v) :: ms), level, rest =>
    '{' :: newline (level + 1) (writeText name (':' :: ' ' ::
      v.writePretty (level + 1) (writePrettyMembers ms level rest)))
  | .null, _, rest => Value.null.writeCompact rest
  | .bool b, _, rest => (Value.bool b).writeCompact rest
  | .number n, _, rest => n.chars ++ rest
  | .text s, _, rest => writeText s rest

/-- Further items and the closing bracket of a list at a level. -/
def writePrettyItems : List Value → (level : Nat) → List Char → List Char
  | [], level, rest => newline level (']' :: rest)
  | v :: vs, level, rest =>
    ',' :: newline (level + 1) (v.writePretty (level + 1) (writePrettyItems vs level rest))

/-- Further members and the closing brace of an object at a level. -/
def writePrettyMembers : List (String × Value) → (level : Nat) → List Char → List Char
  | [], level, rest => newline level ('}' :: rest)
  | (name, v) :: ms, level, rest =>
    ',' :: newline (level + 1) (writeText name (':' :: ' ' ::
      v.writePretty (level + 1) (writePrettyMembers ms level rest)))

end

/-- A value written out over indented lines. -/
def Value.pretty (v : Value) : String := String.ofList (v.writePretty 0 [])

example : (Value.list [.ofNat 1, .object [("a", .text "b"), ("c", .list [])]]).compact =
    "[1,\x7b\"a\":\"b\",\"c\":[]\x7d]" := by decide

example : (Value.object [("a", .list [.ofNat 1])]).pretty =
    "\x7b\n  \"a\": [\n    1\n  ]\n\x7d" := by decide

end DesignSpace.Json
