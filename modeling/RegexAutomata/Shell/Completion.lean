/-
Completing the last word of a line.

The first word of a line is completed to a command.  After that a dash starts a flag of
the command, and what else can stand there depends on the command and on how many
words without two dashes in front come before.
-/
import RegexAutomata.Shell.Command
import RegexAutomata.Shell.Wildcard

namespace RegexAutomata.Shell

/-- What a word can be completed to. -/
inductive Completer where
  | nothing
  | oneOf (choices : List String)
  | command
  | file
deriving DecidableEq, Repr

namespace Completer

/-- What a word of a command can be completed to, by its place. -/
def ofCommand (name : String) (place : Nat) : Completer :=
  if name = "search" ∨ name = "grep" then if place = 1 then nothing else file
  else if name = "source" ∨ name = "." then file
  else if name = "cache" ∧ place = 1 then oneOf ["on", "off", "clear"]
  else if name = "help" ∧ place = 1 then command
  else nothing

/-- The word with which the search starts: for a file, the home directory is put in and a
slash is added to a directory. -/
def expand (c : Completer) (t : FileTree) (home text : String) : String :=
  match c with
  | file =>
    let path := expandHome home text
    if !path.endsWith "/" && t.hasDirectory path then path ++ "/" else path
  | _ => text

/-- The directories that start like a path, and the files in the directory of the path. -/
def filesLike (t : FileTree) (path : String) : List String :=
  let directory := (splitPath path).1
  let inside := if directory.isEmpty then "*" else directory ++ "/*"
  t.expandPath (path ++ "*/") ++ (t.expandPath inside).filter fun p => !t.hasDirectory p

/-- All that a word can be completed to. -/
def choices (c : Completer) (t : FileTree) (text : String) : List String :=
  match c with
  | nothing => []
  | oneOf cs => cs
  | command => Form.allNames
  | file => filesLike t text

end Completer

/-- Strings in code-point order. -/
def sortedStrings (ss : List String) : List String := ss.mergeSort fun s t => decide (s ≤ t)

/-- The flags of a command that start like a word, each with a space behind it. -/
def flagsLike (form : Form) (text : String) : List String :=
  let names := form.usage.flags.flatMap (·.names)
  sortedStrings ((names.filter (·.startsWith text)).map (· ++ " "))

/-- What a completer makes of a word.  A single choice that is no directory gets a space
behind it, and of several choices only what they have in common is given as long as that
changes the word. -/
def complete (c : Completer) (t : FileTree) (home text : String) : List String :=
  let expanded := c.expand t home text
  let found := sortedStrings ((c.choices t expanded).filter (·.startsWith expanded))
  match found with
  | [] => []
  | [x] => if x.endsWith "/" then [x] else [x ++ " "]
  | found => if expanded != text then [expanded] else found

/-- What the word `text` at the end of a line can be completed to. -/
def completions (t : FileTree) (home line text : String) : List String :=
  let words := (blankSeparated line.toList).map String.ofList
  let words := if text.isEmpty then words else words.dropLast
  match words with
  | [] => complete .command t home text
  | name :: before =>
    match Form.named? name with
    | none => []
    | some form =>
      if text.startsWith "-" then flagsLike form text
      else
        let place := (before.filter fun w => !w.startsWith "--").length + 1
        complete (.ofCommand name place) t home text

end RegexAutomata.Shell
