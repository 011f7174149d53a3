/-
  Subject:   TEXTS OF SUBSCRIPTS. A text without blanks at its ends stays as it is, so a subscript
             is the subscript of its own text.

  * `Text.trimChars_trimChars`: blanks are taken away once;
  * `Subscript.parse?_text`: **the text of a subscript has this subscript**.
-/
import Mathlib.Data.List.DropRight
import DesignSpace.Subscript

namespace DesignSpace

namespace Text

/-- **A text without blanks at its ends stays as it is.** -/
theorem trimChars_trimChars (cs : List Char) : trimChars (trimChars cs) = trimChars cs := by
  have hfront : trimChars cs <+: cs.dropWhile isBlank :=
    List.rdropWhile_prefix isBlank (cs.dropWhile isBlank)
  have hstart : (trimChars cs).dropWhile isBlank = trimChars cs := by
    refine List.dropWhile_eq_self_iff.mpr fun hl => ?_
    rw [hfront.getElem hl]
    exact List.dropWhile_eq_self_iff.mp (List.dropWhile_idempotent isBlank cs) _
  show ((trimChars cs).dropWhile isBlank).rdropWhile isBlank = trimChars cs
  rw [hstart]
  exact List.rdropWhile_idempotent isBlank (cs.dropWhile isBlank)

end Text

/-- **The text of a subscript has this subscript.** -/
theorem Subscript.parse?_text {s : String} {x : Subscript} (h : parse? s = some x) :
    parse? x.text = some x := by
  simp only [parse?] at h
  split at h
  · cases h
  · next hok =>
      cases h
      rw [parse?, String.toList_ofList, Text.trimChars_trimChars, if_neg hok]

end DesignSpace
