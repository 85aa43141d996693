import TagLang.Command.Run

/-!
# The program

The command line on the files and the standard streams of the machine.
-/

namespace TagLang

/-- All lines of standard input, behind those already read. -/
partial def readLines (stream : IO.FS.Stream) (done : String) : IO String := do
  let line ← stream.getLine
  if line.isEmpty then return done else readLines stream (done ++ line)

/-- The result of an action, or `none` if it fails. -/
def attempt {α : Type} (action : IO α) : IO (Option α) := do
  try return some (← action) catch _ => return none

/-- The host of the machine. -/
def machine : Host IO where
  read path := attempt (IO.FS.readFile path)
  present path := return (← attempt (IO.FS.realPath path)).isSome
  input := do attempt (readLines (← IO.getStdin) "")
  write path content := return (← attempt (IO.FS.writeFile path content)).isSome
  print text := IO.print text

end TagLang

open TagLang in
/-- Runs the arguments; the result is the exit code. -/
def main (args : List String) : IO UInt32 := do
  let status ← runCommand Readers.standard machine args
  match status with
  | .success => pure ()
  | .failure cause => IO.eprintln cause.message
  | .usage => IO.eprint CommandLine.usageText
  return status.code.toUInt32
