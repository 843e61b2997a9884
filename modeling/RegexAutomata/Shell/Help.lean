/-
Help in two columns.

Each entry has a label on the left and a description on the right, which is broken into
lines between words.  The right column starts two places behind the longest label, but
no further than column 24; a longer label has a line of its own.
-/
import RegexAutomata.Shell.Arguments
import RegexAutomata.Text.Blank

namespace RegexAutomata.Shell

/-- A label and its description. -/
structure HelpEntry where
  indent : Nat
  label : String
  description : String
deriving DecidableEq, Repr

/-- Entries under a title. -/
structure HelpSection where
  title : String
  entries : List HelpEntry
deriving DecidableEq, Repr

namespace Help

/-- The number of columns. -/
def width : Nat := 78

/-- The last column in which descriptions can start. -/
def lastPosition : Nat := 24

/-- So many spaces. -/
def spaces (n : Nat) : String := String.ofList (List.replicate n ' ')

/-- Words put on lines of limited width; `line` is the line being filled. -/
def fill (limit : Nat) (line : String) : List String → List String
  | [] => if line.isEmpty then [] else [line]
  | w :: ws =>
    if line.isEmpty then fill limit w ws
    else if line.length + 1 + w.length ≤ limit then fill limit (line ++ " " ++ w) ws
    else line :: fill limit w ws

/-- A text broken into lines of limited width. -/
def wrap (limit : Nat) (s : String) : List String :=
  fill limit "" ((blankSeparated s.toList).map String.ofList)

/-- The column in which descriptions start. -/
def position (sections : List HelpSection) : Nat :=
  let ends := sections.flatMap fun s => s.entries.map fun e => e.indent + e.label.length
  min (ends.foldl max 0 + 2) lastPosition

/-- The lines of an entry. -/
def entryLines (column : Nat) (e : HelpEntry) : List String :=
  let label := spaces e.indent ++ e.label
  let lines := wrap (width - column) e.description
  match lines with
  | [] => [label]
  | first :: more =>
    let more := more.map (spaces column ++ ·)
    if label.length + 2 ≤ column then
      (label ++ spaces (column - label.length) ++ first) :: more
    else label :: (spaces column ++ first) :: more

/-- The lines of a section. -/
def sectionLines (column : Nat) (s : HelpSection) : List String :=
  (s.title ++ ":") :: s.entries.flatMap (entryLines column)

/-- Sections with entries, with an empty line between them. -/
def render (sections : List HelpSection) : List String :=
  let column := position sections
  let blocks := (sections.filter fun s => !s.entries.isEmpty).map (sectionLines column)
  List.intercalate [""] blocks

end Help

/-- The sections of help on the arguments of a command. -/
def Usage.helpSections (u : Usage) : List HelpSection :=
  [⟨"positional arguments", u.positionals.map fun p => ⟨2, p.name, p.help⟩⟩,
    ⟨"options", u.flags.map fun f => ⟨2, f.label ", ", f.help⟩⟩]

end RegexAutomata.Shell
