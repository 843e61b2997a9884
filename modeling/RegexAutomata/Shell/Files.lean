/-
A tree of files.

Files are known by relative paths.  A path is followed name by name: an empty name and a
dot stay in a directory, two dots leave it.  Outside of the tree there are the
directories that lead to it and the root, but no names are known there.
-/
import RegexAutomata.Table
import RegexAutomata.Text.Quoted

namespace RegexAutomata.Shell

/-- Why a file cannot be read. -/
structure FileError where
  code : Nat
  reason : String
deriving DecidableEq, Repr

namespace FileError

/-- There is no file of that name. -/
def notFound : FileError := ⟨2, "No such file or directory"⟩

/-- Something on the way is no directory. -/
def notDirectory : FileError := ⟨20, "Not a directory"⟩

/-- It is a directory. -/
def isDirectory : FileError := ⟨21, "Is a directory"⟩

/-- The path is too long, or a name on the way. -/
def nameTooLong : FileError := ⟨36, "File name too long"⟩

/-- The words for an error with a path. -/
def text (e : FileError) (path : String) : String :=
  s!"[Errno {e.code}] {e.reason}: " ++ quoted path.toList

end FileError

/-- What a path can lead to. -/
inductive FileEntry where
  | file (content : Text)
  | directory
deriving DecidableEq, Repr

/-- The names that lead to a place from the top of the tree.  Outside of the tree it is as
many pairs of dots as there are steps up, or the root. -/
abbrev Trail := List String

namespace Trail

/-- The root, with which absolute paths begin. -/
def root : Trail := ["/"]

/-- The directory that a place is in; the root is in itself. -/
def parent (trail : Trail) : Trail :=
  match trail.getLast? with
  | none => [".."]
  | some name =>
    if name == ".." then trail ++ [".."] else if trail = root then root else trail.dropLast

end Trail

/-- All files and directories below the top. -/
structure FileTree where
  entries : Table Trail FileEntry

namespace FileTree

/-- The parts of a path between its slashes. -/
def parts (path : String) : List String := path.splitOn "/"

/-- The tree with a directory and all directories that lead to it. -/
def addDirectory (t : FileTree) (trail : Trail) : FileTree :=
  ⟨(List.range trail.length).foldl (fun es n =>
    es.put (trail.take (n + 1)) .directory) t.entries⟩

/-- The tree with one more file; a path that ends in a slash is an empty directory. -/
def add (t : FileTree) (path : String) (content : Text) : FileTree :=
  let trail := (parts path).filter fun s => !s.isEmpty && s != "."
  if path.endsWith "/" then t.addDirectory trail
  else ⟨(t.addDirectory trail.dropLast).entries.put trail (.file content)⟩

/-- The tree of some files. -/
def ofList (files : List (String × Text)) : FileTree :=
  files.foldl (fun t f => t.add f.1 f.2) ⟨[]⟩

/-- The size of the longest path, in bytes. -/
def maxPathSize : Nat := 4095

/-- The size of the longest name, in bytes. -/
def maxNameSize : Nat := 255

/-- Follows the rest of a path from a directory. -/
def follow (t : FileTree) (trail : Trail) : List String → Except FileError (Trail × FileEntry)
  | [] => .ok (trail, .directory)
  | name :: rest =>
    if name.isEmpty || name == "." then t.follow trail rest
    else if name == ".." then t.follow (Trail.parent trail) rest
    else if maxNameSize < name.utf8ByteSize then .error .nameTooLong
    else
      match t.entries.get? (trail ++ [name]) with
      | none => .error .notFound
      | some .directory => t.follow (trail ++ [name]) rest
      | some (.file content) =>
        if rest.isEmpty then .ok (trail ++ [name], .file content) else .error .notDirectory

/-- What a path leads to. -/
def entry (t : FileTree) (path : String) : Except FileError (Trail × FileEntry) :=
  if path.isEmpty then .error .notFound
  else if maxPathSize < path.utf8ByteSize then .error .nameTooLong
  else t.follow (if path.startsWith "/" then Trail.root else []) (parts path)

/-- The content of a file. -/
def read (t : FileTree) (path : String) : Except FileError Text :=
  match t.entry path with
  | .error e => .error e
  | .ok (_, .directory) => .error .isDirectory
  | .ok (_, .file content) => .ok content

/-- Does the path lead anywhere? -/
def hasEntry (t : FileTree) (path : String) : Bool := (t.entry path).toOption.isSome

/-- Does the path lead to a directory? -/
def hasDirectory (t : FileTree) (path : String) : Bool :=
  match t.entry path with
  | .ok (_, .directory) => true
  | _ => false

/-- The names in a directory, with the mark of those that are directories; none if the path
leads to no directory.  The empty path is the top. -/
def names (t : FileTree) (path : String) : List (String × Bool) :=
  let trail := if path.isEmpty then some [] else
    match t.entry path with
    | .ok (trail, .directory) => some trail
    | _ => none
  match trail with
  | none => []
  | some trail =>
    t.entries.filterMap fun e =>
      match e.1.getLast? with
      | some name =>
        if e.1.dropLast = trail then some (name, e.2 == .directory) else none
      | none => none

end FileTree

/-- A path in which a leading tilde is replaced by the home directory. -/
def expandHome (home path : String) : String :=
  match path.toList with
  | '~' :: rest =>
    if rest.head?.all (· == '/') then
      home ++ String.ofList rest
    else path
  | _ => path

end RegexAutomata.Shell
