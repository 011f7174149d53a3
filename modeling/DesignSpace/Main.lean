/-
  Subject:   THE PROGRAM: the command line on the files of the machine.
-/
import DesignSpace.CommandLine.Reply

/-- The files of the machine as a disk. -/
instance : DesignSpace.Disk IO where
  read path := do
    try
      return some (← IO.FS.readFile path)
    catch _ => return none
  write path text := do
    try
      IO.FS.writeFile path text
      return true
    catch _ => return false

/-- Prints the reply to the arguments. -/
def main (args : List String) : IO UInt32 := do
  let reply ← DesignSpace.CommandLine.answer (m := IO) args
  IO.print reply.output
  IO.eprint reply.complaint
  return reply.code.toUInt32
