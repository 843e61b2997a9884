/-
The program: command lines from scripts and from standard input.
-/
import RegexAutomata.Shell.Launch

namespace RegexAutomata.Shell

/-- Why reading a file has failed. -/
def fileErrorOf (e : IO.Error) : FileError :=
  match e with
  | .noFileOrDirectory .. => .notFound
  | .inappropriateType .. => .isDirectory
  | .permissionDenied .. => ⟨13, "Permission denied"⟩
  | .invalidArgument .. => .nameTooLong
  | e => ⟨5, toString e⟩

/-- The real surroundings of the shell. -/
def realHost (home : String) : Host IO where
  home := home
  read path := do
    try
      let content ← IO.FS.readFile path
      pure (.ok content.toList)
    catch e => pure (.error (fileErrorOf e))
  now := do
    let t ← IO.monoNanosNow
    pure (t.toFloat / 1e9)

/-- Prints lines in turn. -/
def printLines (lines : List Line) : IO Unit := do
  let out ← IO.getStdout
  let err ← IO.getStderr
  for line in lines do
    match line with
    | .out s => out.putStrLn s
    | .err s => err.putStrLn s
    | .prompt s => out.putStr s
  out.flush

/-- Reads lines and runs them until the input ends or a line ends the program. -/
partial def readAndRun (host : Host IO) (terminal : Bool) (s : State) : IO UInt32 := do
  if terminal then printLines [.prompt promptText]
  let line ← (← IO.getStdin).getLine
  if line.isEmpty then
    if terminal then printLines [.out ""]
    pure 0
  else
    let o ← runLines (execute host maxDepth) false s (textLines line.toList)
    printLines o.lines
    match o.status with
    | .exit code => pure code.toUInt32
    | _ => readAndRun host terminal o.state

end RegexAutomata.Shell

open RegexAutomata.Shell

/-- Runs the program. -/
def main (arguments : List String) : IO UInt32 := do
  let home := (← IO.getEnv "HOME").getD "~"
  let host := realHost home
  let first ← start host arguments
  printLines first.lines
  match first.status with
  | .exit code => pure code.toUInt32
  | _ => readAndRun host (← (← IO.getStdin).isTty) first.state
