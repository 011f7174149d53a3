/-
  Subject:   DISKS: where texts are kept under paths.

  * `Disk`: reading and writing of whole texts, in whatever way a monad does it;
  * `Folder`: a disk with a single folder, held as a value;
  * `Folder.nameOf?`, `Folder.shortened`: the paths that lead to a file of it;
  * `Folder.read?_write?`: what is written is read back.
-/
import DesignSpace.Keyed

namespace DesignSpace

/-- Texts under paths. -/
class Disk (m : Type → Type) where
  /-- The text under a path; none if there is none, or if what is there is no text. -/
  read : (path : String) → m (Option String)
  /-- A text put under a path, in place of what is there; says whether that was done. -/
  write : (path text : String) → m Bool

/-- A folder without folders in it: its files by name, where a file that holds no text has none. -/
structure Folder where
  files : List (String × Option String) := []
deriving DecidableEq, Repr

namespace Folder

/-- The steps of a path, which stand between its slashes. -/
def steps (path : String) : List String := (cut path.toList).map String.ofList
where
  /-- Characters between slashes. -/
  cut : List Char → List (List Char)
    | [] => [[]]
    | '/' :: cs => [] :: cut cs
    | c :: cs =>
      match cut cs with
      | [] => [[c]]
      | step :: rest => (c :: step) :: rest

/-- Whether a step of a path stays where it is. -/
def stays (step : String) : Bool := step = "" || step = "."

/-- Whether a step of a path can be the name of a file: a name has at most 255 bytes and no null
    character in it. -/
def isName (step : String) : Bool :=
  !stays step && step != ".." && decide (step.utf8ByteSize ≤ 255) && !step.toList.contains '\x00'

/-- The name of the file that a path leads to from inside the folder. A path may start with steps
    that stay where they are; one that leads elsewhere, or to a folder, has no name. -/
def nameOf? (path : String) : Option String :=
  if (steps path).head? = some "" then none
  else
    match (steps path).dropWhile stays with
    | [step] => if isName step then some step else none
    | _ => none

/-- A path without the steps at either end that stay where they are. A path that starts at the
    root of all folders stays as it is. -/
def shortened (path : String) : String :=
  if (steps path).head? = some "" then path
  else "/".intercalate ((((steps path).dropWhile stays).reverse.dropWhile stays).reverse)

/-- The text under a path. -/
def read? (f : Folder) (path : String) : Option String :=
  (nameOf? path).bind fun name => (Keyed.get? f.files name).getD none

/-- The folder with a text under a path. -/
def write? (f : Folder) (path text : String) : Option Folder :=
  (nameOf? path).map fun name => ⟨Keyed.insert f.files name (some text)⟩

/-- What is written is read back under every path to the same file; all else stays. -/
theorem read?_write? {f g : Folder} {path text : String} (h : f.write? path text = some g)
    (other : String) :
    g.read? other = if nameOf? other = nameOf? path then some text else f.read? other := by
  obtain ⟨name, hn, rfl⟩ := Option.map_eq_some_iff.1 h
  cases ho : nameOf? other with
  | none => simp [read?, ho, hn]
  | some o =>
    by_cases e : name = o
    · simp [read?, ho, hn, Keyed.get?_insert, e]
    · simp [read?, ho, hn, Keyed.get?_insert, e, Ne.symm e]

example : nameOf? "././/o.json" = some "o.json" ∧ nameOf? "o.json/" = none := by decide +kernel

example : shortened ".//o.json/." = "o.json" ∧ shortened "a/./b" = "a/./b" := by decide +kernel

end Folder

/-- A folder as a disk. -/
instance : Disk (StateM Folder) where
  read path := do return (← get).read? path
  write path text := do
    match (← get).write? path text with
    | some f =>
      set f
      return true
    | none => return false

end DesignSpace
