/-
Paths with wildcards.

In a name a star stands for any characters, a question mark for one, and brackets for one
of the characters and ranges between them, or one of the others if an exclamation mark
comes first.  A range whose end comes before its start stands for nothing.  `expandPath`
gives the paths in a tree that a path with wildcards stands for.  Names that start with a
dot are met only by patterns that do.
-/
import RegexAutomata.Shell.Files

namespace RegexAutomata.Shell

/-- An element of a name with wildcards. -/
inductive Wildcard where
  | star
  | question
  | literal (c : Char)
  /-- One of the characters in some ranges, or one that is in none of them. -/
  | oneOf (negated : Bool) (ranges : List (Char × Char))
deriving DecidableEq, Repr

namespace Wildcard

/-- Cuts the text between two brackets at the dashes that make ranges.  Every part but the
last has at least so many characters, of which the last one starts a range. -/
def cut (least : Nat) (t : Text) : List Text :=
  match h : (t.drop least).dropWhile (· ≠ '-') with
  | [] => [t]
  | _ :: rest =>
    have : rest.length < t.length := by
      have hl := (List.dropWhile_sublist (l := t.drop least) (· ≠ '-')).length_le
      rw [h, List.length_cons, List.length_drop] at hl
      omega
    (t.take least ++ (t.drop least).takeWhile (· ≠ '-')) :: cut 2 rest
termination_by t.length

/-- Parts in which a dash at the very end is a character of its own. -/
def keepLastDash : List Text → List Text
  | [] => []
  | [c, []] => [c ++ ['-']]
  | c :: cs => c :: keepLastDash cs

/-- Parts without the ranges that end before they start, which vanish together with their
two ends. -/
def dropEmptyRanges : List Text → List Text
  | [] => []
  | c :: cs =>
    match c.getLast?, dropEmptyRanges cs with
    | some low, (high :: d) :: ds =>
      if high < low then (c.dropLast ++ d) :: ds else c :: (high :: d) :: ds
    | _, ds => c :: ds

/-- The characters of the parts, and the ranges from the end of each part to the start of the
next one. -/
def ranges : List Text → List (Char × Char)
  | [] => []
  | c :: cs =>
    let between := match c.getLast?, cs.head?.bind List.head? with
      | some low, some high => [(low, high)]
      | _, _ => []
    c.map (fun x => (x, x)) ++ between ++ ranges cs

/-- What stands between an opening bracket and the one that closes it, and what follows.  A
closing bracket that comes first closes nothing. -/
def bracket (t : Text) : Option (Text × Text) :=
  let (mark, t) := match t with
    | '!' :: t => (['!'], t)
    | t => ([], t)
  let (first, t) := match t with
    | ']' :: t => ([']'], t)
    | t => ([], t)
  match t.dropWhile (· ≠ ']') with
  | [] => none
  | _ :: rest => some (mark ++ first ++ t.takeWhile (· ≠ ']'), rest)

/-- The set that the text between two brackets stands for.  Whether an exclamation mark comes
first is seen when empty ranges are gone. -/
def ofBracket (t : Text) : Wildcard :=
  match dropEmptyRanges (keepLastDash (cut (if t.head? = some '!' then 2 else 1) t)) with
  | ['!'] :: [] => question
  -- a dash right behind the mark makes no range
  | ['!'] :: cs => oneOf true (('-', '-') :: ranges cs)
  | ('!' :: c) :: cs => oneOf true (ranges (c :: cs))
  | cs => oneOf false (ranges cs)

/-- The elements of a name with wildcards; `fuel` is at least the length of the name. -/
def readFrom : Nat → Text → List Wildcard
  | 0, _ => []
  | _ + 1, [] => []
  | fuel + 1, c :: rest =>
    if c = '*' then star :: readFrom fuel rest
    else if c = '?' then question :: readFrom fuel rest
    else if c = '[' then
      match bracket rest with
      | some (inner, rest) => ofBracket inner :: readFrom fuel rest
      | none => literal c :: readFrom fuel rest
    else literal c :: readFrom fuel rest

/-- The elements of a name with wildcards. -/
def read (t : Text) : List Wildcard := readFrom t.length t

/-- Does an element other than a star stand for this character? -/
def admits (w : Wildcard) (c : Char) : Bool :=
  match w with
  | star | question => true
  | literal d => c == d
  | oneOf negated rs => negated != rs.any fun r => r.1 ≤ c && c ≤ r.2

/-- Do the elements stand for a name? -/
def matchesName : List Wildcard → Text → Bool
  | [], t => t.isEmpty
  | star :: ws, [] => matchesName ws []
  -- a star ends here, or takes one more character
  | star :: ws, c :: t => matchesName ws (c :: t) || matchesName (star :: ws) t
  | _ :: _, [] => false
  | w :: ws, c :: t => w.admits c && matchesName ws t
termination_by ws t => ws.length + t.length

end Wildcard

/-- Does a path have wildcards? -/
def hasWildcard (path : String) : Bool := path.toList.any fun c => c == '*' || c == '?' || c == '['

/-- A path up to its last slash, without the slashes at its end unless it is made of them,
and the rest of the path. -/
def splitPath (path : String) : String × String :=
  let t := path.toList.reverse
  let tail := (t.takeWhile (· ≠ '/')).reverse
  let head := t.dropWhile (· ≠ '/')
  let trimmed := head.dropWhile (· = '/')
  (String.ofList (if trimmed.isEmpty then head else trimmed).reverse, String.ofList tail)

/-- A path with a name added to it. -/
def joinPath (directory name : String) : String :=
  if name.startsWith "/" then name
  else if directory.isEmpty || directory.endsWith "/" then directory ++ name
  else directory ++ "/" ++ name

namespace FileTree

/-- The names in a directory that a name with wildcards stands for. -/
def namesLike (t : FileTree) (directory pattern : String) (directoriesOnly : Bool) :
    List String :=
  let ws := Wildcard.read pattern.toList
  let hidden := pattern.startsWith "."
  ((t.names directory).filter fun e =>
    (!directoriesOnly || e.2) && (hidden || !e.1.startsWith ".") &&
      Wildcard.matchesName ws e.1.toList).map (·.1)

/-- The name without wildcards if it is there; the empty name is there in a directory. -/
def nameThere (t : FileTree) (directory name : String) : List String :=
  let there := if name.isEmpty then t.hasDirectory directory else
    t.hasEntry (joinPath directory name)
  if there then [name] else []

/-- The paths that a path with wildcards stands for.  Each call looks at a shorter path;
`fuel` is at least its length. -/
def expandFrom (t : FileTree) : Nat → Bool → String → List String
  | 0, _, _ => []
  | fuel + 1, directoriesOnly, path =>
    let (directory, name) := splitPath path
    if !hasWildcard path then
      let there := if name.isEmpty then t.hasDirectory directory else t.hasEntry path
      if there then [path] else []
    else if directory.isEmpty then t.namesLike "" name directoriesOnly
    else
      let directories :=
        if hasWildcard directory then t.expandFrom fuel true directory else [directory]
      directories.flatMap fun d =>
        let names := if hasWildcard name then t.namesLike d name directoriesOnly else
          t.nameThere d name
        names.map (joinPath d)

/-- The paths that a path with wildcards stands for. -/
def expandPath (t : FileTree) (path : String) : List String :=
  t.expandFrom (path.length + 1) false path

end FileTree

end RegexAutomata.Shell
