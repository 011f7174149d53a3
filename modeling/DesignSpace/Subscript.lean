/-
  Subject:   SUBSCRIPTS of array accesses: affine expressions such as `i+k` or `2*j+1`, of which
             only the text and the variables count.

  * `Subscript.parse?`: a text without surrounding blanks, made of letters, digits, `_`, `+`, `-`,
    `*` and blanks;
  * `Subscript.words`: the variables in such a text, as they come.
-/
import DesignSpace.Text.Blank

namespace DesignSpace

/-- One subscript: its text and the names of its variables, in the order of their first
    occurrence. -/
structure Subscript where
  text : String
  names : List String
deriving DecidableEq, Repr

namespace Subscript

/-- The first character of a variable. -/
def isLetter (c : Char) : Bool := c.isAlpha || c == '_'

/-- A further character of a variable. -/
def isWordChar (c : Char) : Bool := c.isAlphanum || c == '_'

/-- A character of a subscript. -/
def isAllowed (c : Char) : Bool :=
  isWordChar c || c == '+' || c == '-' || c == '*' || Text.isBlank c

/-- The variables of a text from left to right. `word` is the variable being read, its last
    character first; it is empty between variables, where a digit starts none. -/
def words : (word : List Char) → List Char → List (List Char)
  | [], [] => []
  | w :: ws, [] => [(w :: ws).reverse]
  | [], c :: cs => if isLetter c then words [c] cs else words [] cs
  | w :: ws, c :: cs =>
    if isWordChar c then words (c :: w :: ws) cs else (w :: ws).reverse :: words [] cs

/-- The subscript of a text; none for a text that is blank or holds another character. -/
def parse? (s : String) : Option Subscript :=
  let cs := Text.trimChars s.toList
  if cs.isEmpty || !cs.all isAllowed then none
  else some ⟨String.ofList cs, ((words [] cs).map String.ofList).eraseDups⟩

/-- Whether a variable occurs. -/
def uses (s : Subscript) (iv : String) : Bool := s.names.contains iv

example : (parse? " 2*i + k - i1").map names = some ["i", "k", "i1"] := by decide

example : (parse? "2i3").map names = some ["i3"] := by decide

example : parse? "i / 2" = none ∧ parse? "  " = none := by decide

end Subscript

end DesignSpace
