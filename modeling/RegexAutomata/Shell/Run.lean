/-
Running command lines.

The shell keeps a generator and the pattern that was compiled last with its automaton.  A
line is split into words, read as a command and carried out.  What it prints is
returned line by line.  Files, the home directory and the clock are the host's.
-/
import RegexAutomata.Duration
import RegexAutomata.Search
import RegexAutomata.Shell.Command
import RegexAutomata.Shell.Files
import RegexAutomata.Shell.Words

namespace RegexAutomata.Shell

/-- The state of the shell. -/
structure State where
  generator : Generator
  /-- The pattern that was compiled last. -/
  pattern : Option Text
  /-- The automaton of that pattern. -/
  automaton : Option Handle

/-- A shell in which nothing has been compiled. -/
def State.new : State := ⟨.standard, none, none⟩

/-- What is printed. -/
inductive Line where
  | out (s : String)
  /-- A line that reports an error. -/
  | err (s : String)
  /-- A text without a line end. -/
  | prompt (s : String)
deriving DecidableEq, Repr

/-- How a command line ends. -/
inductive Status where
  | succeeded
  | failed
  /-- The program ends, with this exit code. -/
  | exit (code : Nat)
deriving DecidableEq, Repr

/-- What a command line leaves behind. -/
structure Outcome where
  state : State
  lines : List Line
  status : Status

/-- What the shell needs from its surroundings. -/
structure Host (m : Type → Type) where
  home : String
  read : String → m (Except FileError Text)
  /-- The time in seconds. -/
  now : m Float

/-! ### Commands without files -/

/-- Switches all caches on. -/
def State.cacheOn (s : State) : State :=
  let g := { s.generator with
    caching := true, transitionCaching := true, complementCaching := true }
  match s.automaton with
  | some h =>
    let x := g.acceptor h
    { s with generator := if x.automaton.deterministic then g else g.set h x.enableCaching }
  | none => { s with generator := g }

/-- Switches all caches off. -/
def State.cacheOff (s : State) : State :=
  let g := { s.generator with
    caching := false, transitionCaching := false, complementCaching := false }
  match s.automaton with
  | some h => { s with generator := g.set h (g.acceptor h).disableCaching }
  | none => { s with generator := g }

/-- Clears all caches. -/
def State.cacheClear (s : State) : State :=
  let g := { s.generator with automata := [], patterns := [], complements := [] }
  match s.automaton with
  | some h => { s with generator := g.set h (g.acceptor h).clearMemo }
  | none => { s with generator := g }

/-- The words for a switch. -/
def switchText (enabled : Bool) : String := if enabled then "enabled" else "disabled"

/-- What is said about the caches. -/
def State.cacheStatus (s : State) : List Line :=
  let g := s.generator
  let patterns := s!"patterns: {g.automata.length} cached, " ++ switchText g.caching
  match s.automaton with
  | none => [.out patterns]
  | some h =>
    let x := g.acceptor h
    let mark := if x.automaton.deterministic then " (DFA)" else ""
    [.out patterns,
      .out (s!"transitions: {x.memo.size} cached, " ++ switchText x.caching ++ mark)]

/-- Carries out a command on the caches. -/
def State.cache (s : State) : Option CacheAction → State × List Line
  | some .on => (s.cacheOn, [])
  | some .off => (s.cacheOff, [])
  | some .clear => (s.cacheClear, [])
  | none => (s, s.cacheStatus)

/-- The line that reports a pattern error. -/
def errorLine (e : PatternError) : Line := .err (e.fault.kind.name ++ ": " ++ e.text)

/-- The lines that report a failed compilation. -/
def buildErrorLines : BuildError → List Line
  | .pattern e => [errorLine e]
  | .notDeterministic => []

/-- Shows the canonical form of a pattern. -/
def State.elongate (s : State) (pattern : Text) : State × List Line :=
  match s.generator.elongate pattern with
  | (g, .ok c) => ({ s with generator := g }, [.out (String.ofList c)])
  | (g, .error e) => ({ s with generator := g }, [errorLine e])

/-- The line that tells whether a string is accepted. -/
def verdictLine (string : Text) (accepted : Bool) (elapsed : Float) : Line :=
  let verdict := if accepted then "accepted" else "rejected"
  .out (quoted string ++ ": " ++ verdict ++ " (" ++ durationText elapsed ++ ")")

/-- The line that tells how a pattern was compiled. -/
def compiledLine (canonical : Text) (elapsed : Float) : Line :=
  .err ("Compiled " ++ String.ofList canonical ++ " in " ++ durationText elapsed)

/-- The lines that show where a phrase was found in a file. -/
def matchLines (path : String) (found : List Match) : List Line :=
  found.map fun m => .out (s!"{path}:{m.1}: " ++ String.ofList m.2)

/-! ### Commands that look at the clock or at files -/

section

variable {m : Type → Type} [Monad m]

/-- Compiles a pattern; on demand a line reports it. -/
def compile (host : Host m) (s : State) (verbose : Bool) (pattern : Text) :
    m (State × Option Handle × List Line) := do
  let before ← host.now
  let (g, result) := s.generator.generate pattern
  let after ← host.now
  match result with
  | .error e => pure ({ s with generator := g }, none, buildErrorLines e)
  | .ok h =>
    let (g, canonical) := g.elongate pattern
    let lines := match verbose, canonical with
      | true, .ok c => [compiledLine c (after - before)]
      | _, _ => []
    pure ({ s with generator := g }, some h, lines)

/-- Tries strings on an automaton. -/
def tryEach (host : Host m) (h : Handle) (g : Generator) :
    List Text → m (Generator × List Line)
  | [] => pure (g, [])
  | string :: rest => do
    let before ← host.now
    let (g, accepted) := g.accepts h (Text.symbols string)
    let after ← host.now
    let (g, lines) ← tryEach host h g rest
    pure (g, verdictLine string accepted (after - before) :: lines)

/-- Tries strings on an automaton, or the empty string if there are none. -/
def test (host : Host m) (s : State) (h : Handle) (strings : List Text) :
    m (State × List Line) := do
  let strings := if strings.isEmpty then [[]] else strings
  let (g, lines) ← tryEach host h s.generator strings
  pure ({ s with generator := g }, lines)

/-- Searches files in turn.  A fault in the phrase ends the search, and so does a file that
cannot be read. -/
def searchFiles (host : Host m) (literal : Bool) (phrase : Text) (s : State) :
    List String → m Outcome
  | [] => pure ⟨s, [], .succeeded⟩
  | path :: rest => do
    match s.generator.phrase phrase literal with
    | (g, .error e) => pure ⟨{ s with generator := g }, buildErrorLines e, .succeeded⟩
    | (g, .ok h) =>
      let expanded := expandHome host.home path
      match ← host.read expanded with
      | .error e => pure ⟨{ s with generator := g }, [.out (e.text expanded)], .failed⟩
      | .ok content =>
        let (g, found) := g.searchLines h (textLines content)
        let later ← searchFiles host literal phrase { s with generator := g } rest
        pure { later with lines := matchLines path found ++ later.lines }

/-- Runs lines in turn until one of them ends the program, or fails where the first failure
ends the run. -/
def runLines (run : State → Text → m Outcome) (exitFirst : Bool) (s : State) :
    List Text → m Outcome
  | [] => pure ⟨s, [], .succeeded⟩
  | line :: rest => do
    let first ← run s line
    match first.status with
    | .exit _ => pure first
    | .failed =>
      if exitFirst then pure { first with status := .succeeded }
      else
        let later ← runLines run exitFirst first.state rest
        pure { later with lines := first.lines ++ later.lines }
    | .succeeded =>
      let later ← runLines run exitFirst first.state rest
      pure { later with lines := first.lines ++ later.lines }

/-- Runs the lines of files in turn.  A file that cannot be read ends the run. -/
def sourceFiles (host : Host m) (run : State → Text → m Outcome) (s : State) :
    List String → m Outcome
  | [] => pure ⟨s, [], .succeeded⟩
  | path :: rest => do
    let expanded := expandHome host.home path
    match ← host.read expanded with
    | .error e => pure ⟨s, [.out (e.text expanded)], .failed⟩
    | .ok content =>
      let first ← runLines run true s (textLines content)
      match first.status with
      | .exit _ => pure first
      | _ =>
        let later ← sourceFiles host run first.state rest
        pure { later with lines := first.lines ++ later.lines }

/-- Carries out a command; `run` runs a line of a file. -/
def perform (host : Host m) (run : State → Text → m Outcome) (s : State) :
    Command → m Outcome
  | .compile verbose pattern => do
    let (s, h, lines) ← compile host s verbose pattern
    match h with
    | some h =>
      let s := { s with pattern := some pattern, automaton := some h }
      pure ⟨s, lines, .succeeded⟩
    | none => pure ⟨s, lines, .succeeded⟩
  | .test strings => do
    match s.automaton with
    | none => pure ⟨s, [.err "no pattern compiled yet"], .failed⟩
    | some h =>
      let (s, lines) ← test host s h strings
      pure ⟨s, lines, .succeeded⟩
  | .matchStrings verbose pattern strings => do
    let (s, h, lines) ← compile host s verbose pattern
    match h with
    | none => pure ⟨s, lines, .succeeded⟩
    | some h =>
      let (s, verdicts) ← test host s h strings
      pure ⟨s, lines ++ verdicts, .succeeded⟩
  | .elongate pattern =>
    let (s, lines) := s.elongate pattern
    pure ⟨s, lines, .succeeded⟩
  | .search literal phrase files => searchFiles host literal phrase s files
  | .cache action =>
    let (s, lines) := s.cache action
    pure ⟨s, lines, .succeeded⟩
  | .quit => pure ⟨s, [], .exit 0⟩
  | .source files => sourceFiles host run s files
  | .help command => pure ⟨s, (helpLines command).map .out, .succeeded⟩

/-- The command that a line asks for; nothing for an empty line and a comment. -/
def readLine (line : Text) : Except String (Option Command) :=
  let line := trimBlanks line
  if line.isEmpty || line.head? == some '#' then .ok none
  else
    match words line with
    | .error e => .error ("syntax error: " ++ e.text)
    | .ok ws =>
      match Command.parse (ws.map String.ofList) with
      | .error r => .error (refusalText r)
      | .ok c => .ok (some c)

/-- Runs a line.  Files can run files up to a given depth. -/
def execute (host : Host m) : Nat → State → Text → m Outcome
  | depth, s, line =>
    match readLine line with
    | .error message => pure ⟨s, [.err message], .failed⟩
    | .ok none => pure ⟨s, [], .succeeded⟩
    | .ok (some command) => do
      let run := match depth with
        | 0 => fun s _ => pure ⟨s, [.err "files are nested too deep"], .exit 1⟩
        | depth + 1 => fun s line => execute host depth s line
      let outcome ← perform host run s command
      let s := { outcome.state with generator := outcome.state.generator.forgetEvents }
      pure { outcome with state := s }

end

/-- How deep files can run files. -/
def maxDepth : Nat := 1000

end RegexAutomata.Shell
