/-
Starting the program.

The arguments of the program name scripts, which are run before the lines of its input.
At a terminal every line is asked for by a prompt.
-/
import RegexAutomata.Shell.Run

namespace RegexAutomata.Shell

/-- The arguments of the program. -/
def programUsage : Usage :=
  ⟨[⟨"FILE", .many, [], "Process the commands in FILE before reading standard input"⟩],
    [⟨["-h", "--help"], "show this help message and exit", true⟩,
      ⟨["--debug"], "Log the internals of pattern compilation to stderr", false⟩,
      ⟨["--no-cache"], "Start with all caches disabled", false⟩]⟩

/-- The line that shows how the program is started. -/
def usageLine : String := "usage: " ++ programName ++ " [-h] [--debug] [--no-cache] [FILE ...]"

/-- Help on the program. -/
def programHelp : List String :=
  [usageLine, "", "Regular expressions compiled into finite automata", ""] ++
    Help.render programUsage.helpSections

/-- What is printed to ask for a line. -/
def promptText : String := "(" ++ programName ++ ") "

section

variable {m : Type → Type} [Monad m]

/-- Runs scripts in turn.  One that cannot be read ends the program. -/
def runScripts (host : Host m) (s : State) : List String → m Outcome
  | [] => pure ⟨s, [], .succeeded⟩
  | path :: rest => do
    match ← host.read path with
    | .error e =>
      pure ⟨s, [.err ("Could not load " ++ path ++ ": " ++ e.text path)], .exit 1⟩
    | .ok content =>
      let first ← runLines (execute host maxDepth) true s (textLines content)
      match first.status with
      | .exit _ => pure first
      | _ =>
        let later ← runScripts host first.state rest
        pure { later with lines := first.lines ++ later.lines }

/-- Reads the arguments of the program and runs the scripts. -/
def start (host : Host m) (arguments : List String) : m Outcome :=
  match programUsage.matchAll arguments with
  | .error (.stopped _) => pure ⟨.new, programHelp.map .out, .exit 0⟩
  | .error r =>
    pure ⟨.new, [.err usageLine, .err (programName ++ ": error: " ++ r.text)], .exit 2⟩
  | .ok given =>
    let s := if given.hasFlag "--no-cache" then State.new.cacheOff else .new
    runScripts host s (given.words "FILE")

/-- Runs the lines that are typed at a terminal. -/
def converse (host : Host m) (s : State) : List Text → m Outcome
  | [] => pure ⟨s, [.prompt promptText, .out ""], .succeeded⟩
  | line :: rest => do
    let first ← execute host maxDepth s line
    let lines := .prompt promptText :: first.lines
    match first.status with
    | .exit _ => pure { first with lines }
    | _ =>
      let later ← converse host first.state rest
      pure { later with lines := lines ++ later.lines }

/-- Runs the program on arguments and the lines of its input. -/
def launch (host : Host m) (arguments : List String) (terminal : Bool) (input : Text) :
    m Outcome := do
  let first ← start host arguments
  match first.status with
  | .exit _ => pure first
  | _ =>
    let later ←
      if terminal then converse host first.state (textLines input)
      else runLines (execute host maxDepth) false first.state (textLines input)
    pure { later with lines := first.lines ++ later.lines }

end

end RegexAutomata.Shell
