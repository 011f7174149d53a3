/-
  Subject:   ARGUMENTS of the command line.

  * `Verb`, `Switch`: the commands and their options;
  * `Command`: what is asked for;
  * `Topic`, `Stop`: what help is about, and why no command is run;
  * `Command.parse`: the command that arguments ask for, or why nothing is run.
-/

namespace DesignSpace.CommandLine

/-! ## 1. Words -/

/-- The commands. -/
inductive Verb where
  | estimate
  | explore
  | batch
deriving DecidableEq, Repr

/-- The options of commands. -/
inductive Switch where
  | module
  | target
  | output
  | report
  | verbose
  | help
deriving DecidableEq, Repr

namespace Switch

/-- The name of an option behind two dashes. -/
def long : Switch → String
  | module => "module"
  | target => "target"
  | output => "output"
  | report => "report"
  | verbose => "verbose"
  | help => "help"

/-- The letter of an option behind one dash. -/
def short : Switch → Char
  | module => 'm'
  | target => 't'
  | output => 'o'
  | report => 'r'
  | verbose => 'v'
  | help => 'h'

/-- Whether a value belongs to an option. -/
def takesValue : Switch → Bool
  | verbose | help => false
  | _ => true

end Switch

namespace Verb

/-- All commands. -/
def all : List Verb := [estimate, explore, batch]

/-- The name of a command. -/
def name : Verb → String
  | estimate => "estimate"
  | explore => "dse"
  | batch => "batch-estimate"

/-- The command with a name. -/
def ofName? (s : String) : Option Verb := all.find? fun v => v.name = s

/-- The options of a command. -/
def switches : Verb → List Switch
  | estimate => [.module, .target, .output, .verbose, .help]
  | explore => [.module, .target, .output, .report, .verbose, .help]
  | batch => [.target, .verbose, .help]

/-- Whether files are named without an option. -/
def takesFiles : Verb → Bool
  | batch => true
  | _ => false

end Verb

/-- What is asked for. -/
inductive Command where
  | estimate (module : String) (target output : Option String)
  | explore (module : String) (target output report : Option String)
  | batch (modules : List String) (target : Option String)
deriving DecidableEq, Repr

/-- What help can be asked about. -/
inductive Topic where
  | program
  | command (verb : Verb)
  | help
deriving DecidableEq, Repr

/-- The topic with a name, for those that have one. -/
def Topic.ofName? (s : String) : Option Topic :=
  if s = "help" then some .help else (Verb.ofName? s).map .command

/-- Why no command is run. -/
inductive Stop where
  | usage
  | help (about : Topic)
  | version
deriving DecidableEq, Repr

/-! ## 2. Options and files -/

/-- What the arguments behind a command gave so far. -/
structure Given where
  switches : List (Switch × String) := []
  files : List String := []
deriving DecidableEq, Repr

namespace Given

/-- The value of an option. -/
def value? (g : Given) (s : Switch) : Option String :=
  (g.switches.find? fun e => e.1 = s).map Prod.snd

/-- An option with its value. No option comes twice, and no value is empty. -/
def addValue (g : Given) (s : Switch) (value : String) : Except Stop Given :=
  if (g.value? s).isSome || value = "" then .error .usage
  else .ok { g with switches := g.switches ++ [(s, value)] }

/-- An option without a value. -/
def addFlag (g : Given) (v : Verb) (s : Switch) : Except Stop Given :=
  if (g.value? s).isSome then .error .usage
  else if s = .help then .error (.help (.command v))
  else .ok { g with switches := g.switches ++ [(s, "")] }

/-- A file, for a command that takes some. -/
def addFile (g : Given) (v : Verb) (file : String) : Except Stop Given :=
  if v.takesFiles && file != "" then .ok { g with files := g.files ++ [file] }
  else .error .usage

/-- What stands behind two dashes: a name, and perhaps a value behind an equals sign. The option
    whose value is still to come is handed on. -/
def addLong (g : Given) (v : Verb) (text : List Char) : Except Stop (Given × Option Switch) :=
  let name := String.ofList (text.takeWhile (· ≠ '='))
  let value := text.dropWhile (· ≠ '=')
  match v.switches.find? fun s => s.long = name with
  | none => .error .usage
  | some s =>
    match s.takesValue, value with
    | true, [] => .ok (g, some s)
    | true, _ :: value => return (← g.addValue s (String.ofList value), none)
    | false, [] => return (← g.addFlag v s, none)
    | false, _ :: _ => .error .usage

/-- What stands behind one dash: letters of options, the last of which may have its value right
    behind it, with or without an equals sign. -/
def addShort (v : Verb) : Given → List Char → Except Stop (Given × Option Switch)
  | g, [] => .ok (g, none)
  | g, c :: rest =>
    match v.switches.find? fun s => s.short = c with
    | none => .error .usage
    | some s =>
      if s.takesValue then
        match rest with
        | [] => .ok (g, some s)
        | '=' :: value => return (← g.addValue s (String.ofList value), none)
        | value => return (← g.addValue s (String.ofList value), none)
      else do
        let g ← g.addFlag v s
        addShort v g rest

/-- The arguments behind a command, where `open?` is an option that still waits for its value.
    What starts with a dash is never such a value; behind two dashes alone all are files. -/
def readFrom (v : Verb) : (open? : Option Switch) → Given → List String → Except Stop Given
  | none, g, [] => .ok g
  | some _, _, [] => .error .usage
  | open?, g, arg :: rest =>
    match arg.toList, open? with
    | ['-', '-'], none => rest.foldlM (fun g file => g.addFile v file) g
    | ['-'], none => do readFrom v none (← g.addFile v arg) rest
    | ['-'], some s => do readFrom v none (← g.addValue s arg) rest
    | '-' :: _, some _ => .error .usage
    | '-' :: '-' :: text, none => do
      let (g, open?) ← g.addLong v text
      readFrom v open? g rest
    | '-' :: letters, none => do
      let (g, open?) ← addShort v g letters
      readFrom v open? g rest
    | _, none => do readFrom v none (← g.addFile v arg) rest
    | _, some s => do readFrom v none (← g.addValue s arg) rest

/-- The command of a verb; the module, or some file, has to be there. -/
def command (g : Given) (v : Verb) : Except Stop Command :=
  match v, g.value? .module with
  | .estimate, some file => .ok (.estimate file (g.value? .target) (g.value? .output))
  | .explore, some file =>
    .ok (.explore file (g.value? .target) (g.value? .output) (g.value? .report))
  | .batch, _ => if g.files.isEmpty then .error .usage else .ok (.batch g.files (g.value? .target))
  | _, none => .error .usage

end Given

/-! ## 3. Whole command lines -/

/-- The command that arguments ask for. Ahead of the command only the version or help can be asked
    for; help can be a command too, about one topic at most. -/
def Command.parse : List String → Except Stop Command
  | [] => .error .usage
  | first :: rest =>
    match Verb.ofName? first, first.toList with
    | some v, _ => do (← Given.readFrom v none {} rest).command v
    | none, ['-', '-', 'v', 'e', 'r', 's', 'i', 'o', 'n'] | none, '-' :: 'V' :: _ =>
      .error .version
    | none, ['-', '-', 'h', 'e', 'l', 'p'] | none, '-' :: 'h' :: _ => .error (.help .program)
    | none, ['h', 'e', 'l', 'p'] =>
      match rest with
      | [] => .error (.help .program)
      | [name] =>
        match Topic.ofName? name with
        | some topic => .error (.help topic)
        | none => .error .usage
      | _ => .error .usage
    | none, _ => .error .usage

example : Command.parse ["estimate", "-vm=a.json", "--target", "t"] =
    .ok (.estimate "a.json" (some "t") none) := by rfl

example : Command.parse ["dse", "-m", "-v"] = .error .usage := by rfl

example : Command.parse ["dse", "-vh"] = .error (.help (.command .explore)) := by rfl

end DesignSpace.CommandLine
