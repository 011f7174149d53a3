/-
  Subject:   HELP on the command line: what is printed about the program and about its commands.

  * `Verb.about`, `Switch.about`: what a command and an option are for, in one line;
  * `columns`: names and explanations side by side;
  * `Topic.text`: the help on a topic.
-/
import DesignSpace.CommandLine.Arguments

namespace DesignSpace.CommandLine

/-- Lines, each ended by a line break. -/
def lines (ls : List String) : String := String.join (ls.map fun l => l ++ "\n")

/-- The name under which the program is called. -/
def programName : String := "hlsdse"

/-! ## 1. What things are for -/

/-- What a command is for. -/
def Verb.about : Verb → String
  | estimate => "Estimate latency and resources of every region of a module"
  | explore => "Explore transformation parameters and commit the best per level"
  | batch => "Estimate several modules in parallel"

/-- What the command for help is for. -/
def helpAbout : String := "Print this message or the help of the given subcommand(s)"

namespace Switch

/-- What an option of a command is for. -/
def about (v : Verb) : Switch → String
  | module => "Module file (JSON)"
  | target =>
    match v with
    | .estimate => "Target spec (clock, budgets, calibration)"
    | .explore => "Target spec with optional `dse` search options"
    | .batch => "Target spec shared by all modules"
  | output =>
    match v with
    | .explore => "Write the optimized module here"
    | _ => "Write the per-region report here"
  | report => "Write the search report (levels, design points, frontier) here"
  | verbose => "Enable verbose output"
  | help => "Print help"

/-- How an option is given. -/
def form (s : Switch) : String :=
  "-" ++ String.singleton s.short ++ ", --" ++ s.long ++ if s.takesValue then " <FILE>" else ""

end Switch

/-- What a command has to be given behind its options. -/
def Verb.operands : Verb → String
  | batch => "<FILES>..."
  | _ => "--module <FILE>"

/-! ## 2. Layout -/

/-- A text with blanks behind it, up to a width. -/
def padded (width : Nat) (s : String) : String :=
  s ++ String.ofList (List.replicate (width - s.length) ' ')

/-- Names and explanations side by side, the explanations two blanks behind the longest name. -/
def columns (rows : List (String × String)) : List String :=
  let width := (rows.map fun r => r.1.length).foldl max 0
  rows.map fun r => "  " ++ padded width r.1 ++ "  " ++ r.2

/-- A titled part of a text, with names and explanations. -/
def titled (title : String) (rows : List (String × String)) : List String :=
  if rows.isEmpty then [] else ["", title ++ ":"] ++ columns rows

/-- The line that shows how the program is called. -/
def usageLine (rest : String) : List String := ["", "Usage: " ++ programName ++ " " ++ rest]

/-! ## 3. Topics -/

/-- The files that a command takes without an option. -/
def Verb.files (v : Verb) : List (String × String) :=
  if v.takesFiles then [(v.operands, "Module files (JSON)")] else []

/-- The help on a topic. -/
def Topic.text : Topic → String
  | program =>
    lines ([programName ++ " - QoR estimation and multi-level DSE for HLS"] ++
      usageLine "<COMMAND>" ++
      titled "Commands" ((Verb.all.map fun v => (v.name, v.about)) ++ [("help", helpAbout)]) ++
      titled "Options" [("-h, --help", "Print help"), ("-V, --version", "Print version")])
  | command v =>
    lines ([v.about] ++ usageLine (v.name ++ " [OPTIONS] " ++ v.operands) ++
      titled "Arguments" v.files ++
      titled "Options" (v.switches.map fun s => (s.form, s.about v)))
  | help =>
    lines ([helpAbout] ++ usageLine "help [COMMAND]..." ++
      titled "Arguments" [("[COMMAND]...", "Print help for the subcommand(s)")])

/-- The name and version of the program. -/
def version : String := lines [programName ++ " 0.1.0"]

end DesignSpace.CommandLine
