/-
The commands of the shell.

A command has names, a line of help and arguments; `Command.parse` reads a command from
the words of a line.
-/
import RegexAutomata.Shell.Help

namespace RegexAutomata.Shell

/-- What is to be done with the caches. -/
inductive CacheAction where
  | on
  | off
  | clear
deriving DecidableEq, Repr

/-- What a line asks for. -/
inductive Command where
  | compile (verbose : Bool) (pattern : Text)
  | test (strings : List Text)
  | matchStrings (verbose : Bool) (pattern : Text) (strings : List Text)
  | elongate (pattern : Text)
  | search (literal : Bool) (phrase : Text) (files : List String)
  | cache (action : Option CacheAction)
  | quit
  | source (files : List String)
  | help (command : Option String)
deriving DecidableEq, Repr

/-- The name under which the program reports errors. -/
def programName : String := "nfaregex"

/-! ### Names, arguments and help -/

/-- A command as it is written. -/
structure Form where
  names : List String
  summary : String
  usage : Usage
  /-- The command that matched words stand for. -/
  read : Matched → Command

namespace Form

/-- The flag that asks for a report. -/
def verbose : Flag := ⟨["--verbose"], "Report the canonical pattern and compile time", false⟩

/-- The flag that takes a phrase literally. -/
def literal : Flag := ⟨["--literal"], "Escape the characters outside the alphabet", false⟩

/-- The first word of an argument, as a text. -/
def textOf (m : Matched) (name : String) : Text := ((m.word? name).getD "").toList

/-- The words of an argument, as texts. -/
def textsOf (m : Matched) (name : String) : List Text := (m.words name).map String.toList

/-- Compiles a pattern and keeps it. -/
def compile : Form where
  names := ["compile"]
  summary := "Compiles a pattern; \"test\" runs against the last compiled pattern."
  usage := ⟨[⟨"PATTERN", .one, [], "Pattern to be compiled"⟩], [verbose]⟩
  read m := .compile (m.hasFlag "--verbose") (textOf m "PATTERN")

/-- Tries strings on the pattern that was kept. -/
def test : Form where
  names := ["test", "t"]
  summary := "Checks whether strings match the last compiled pattern. " ++
    "Without arguments, checks the empty string."
  usage := ⟨[⟨"STRING", .many, [], "Strings to be tested"⟩], []⟩
  read m := .test (textsOf m "STRING")

/-- Compiles a pattern and tries strings on it. -/
def matchStrings : Form where
  names := ["match"]
  summary := "Compiles a pattern and checks whether strings match it."
  usage := ⟨[⟨"PATTERN", .one, [], "Pattern to be compiled"⟩,
    ⟨"STRING", .many, [], "Strings to be tested"⟩], [verbose]⟩
  read m := .matchStrings (m.hasFlag "--verbose") (textOf m "PATTERN") (textsOf m "STRING")

/-- Shows the canonical form of a pattern. -/
def elongate : Form where
  names := ["elongate"]
  summary := "Prints the canonical form of a pattern."
  usage := ⟨[⟨"PATTERN", .one, [], "Pattern to be processed"⟩], []⟩
  read m := .elongate (textOf m "PATTERN")

/-- Searches files. -/
def search : Form where
  names := ["search", "grep"]
  summary := "Prints the lines of the files that contain a phrase."
  usage := ⟨[⟨"PHRASE", .one, [], "Pattern to look for"⟩,
    ⟨"FILE", .some, [], "Files to be searched"⟩], [literal]⟩
  read m := .search (m.hasFlag "--literal") (textOf m "PHRASE") (m.words "FILE")

/-- The action that a word stands for. -/
def action? (w : String) : Option CacheAction :=
  if w = "on" then some .on
  else if w = "off" then some .off
  else if w = "clear" then some .clear
  else none

/-- Turns to the caches. -/
def cache : Form where
  names := ["cache"]
  summary := "Enables, disables or clears the caches."
  usage := ⟨[⟨"ACTION", .optional, ["on", "off", "clear"],
    "on, off or clear; print the cache status if absent"⟩], []⟩
  read m := .cache ((m.word? "ACTION").bind action?)

/-- Leaves the program. -/
def quit : Form where
  names := ["q", "quit"]
  summary := "Exits " ++ programName ++ "."
  usage := ⟨[], []⟩
  read _ := .quit

/-- Runs the lines of files. -/
def source : Form where
  names := ["source", "."]
  summary := "Processes the commands in a file."
  usage := ⟨[⟨"FILE", .some, [], ""⟩], []⟩
  read m := .source (m.words "FILE")

/-- Shows help. -/
def help : Form where
  names := ["help"]
  summary := "Prints the list of commands, or the syntax of a command."
  usage := ⟨[⟨"COMMAND", .optional, [], "Show help for given command."⟩], []⟩
  read m := .help (m.word? "COMMAND")

/-- All commands. -/
def all : List Form :=
  [compile, test, matchStrings, elongate, search, cache, quit, source, help]

/-- The names of all commands. -/
def allNames : List String := all.flatMap (·.names)

/-- The command of a name. -/
def named? (name : String) : Option Form := all.find? fun f => f.names.contains name

/-- All names in braces. -/
def choiceLabel : String := "\x7b" ++ ",".intercalate allNames ++ "\x7d"

/-- The arguments of a line: the name of a command and what belongs to it. -/
def lineUsage : Usage := ⟨[⟨choiceLabel, .rest, allNames, ""⟩], []⟩

end Form

/-! ### Help -/

/-- The list of commands. -/
def commandList : List String :=
  let entries := Form.all.flatMap fun f => f.names.map fun n => HelpEntry.mk 4 n f.summary
  Help.render [⟨"subcommands", ⟨2, Form.choiceLabel, ""⟩ :: entries⟩]

/-- Help on a command, or the list of commands if there is none of that name. -/
def helpLines (command : Option String) : List String :=
  match command.bind Form.named? with
  | some f => Help.render f.usage.helpSections
  | none => commandList

/-! ### Reading a command -/

/-- The words for a refused line.  Unless it is a single argument that is refused, the name
of the program comes first. -/
def refusalText (r : Refusal) : String :=
  if r.ofArgument then r.text else programName ++ ": error: " ++ r.text

/-- The command that the words of a line stand for. -/
def Command.parse (ws : List String) : Except Refusal Command :=
  match Form.lineUsage.match ws with
  | .error e => .error e
  | .ok line =>
    match line.words Form.choiceLabel with
    | [] => .error (.unrecognized line.extras)
    | name :: arguments =>
      match Form.named? name with
      | none => .error (.invalidChoice Form.choiceLabel name Form.allNames)
      | some form =>
        match form.usage.match arguments with
        | .error e => .error e
        | .ok m =>
          let extras := line.extras ++ m.extras
          if extras.isEmpty then .ok (form.read m) else .error (.unrecognized extras)

end RegexAutomata.Shell
