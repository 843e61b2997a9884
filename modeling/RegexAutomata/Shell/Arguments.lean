/-
Matching words against the arguments of a command.

A command has positional arguments, which take words in order, and flags, which start
with a dash and can stand anywhere.  A flag can be shortened as long as it is clear
which one is meant.  After the word `--` no word is a flag.  As many positional
arguments as possible are served by the words before the next flag, each of them with as
many words as the ones behind it leave over.
-/
import RegexAutomata.Text.Digit
import RegexAutomata.Text.Quoted

namespace RegexAutomata.Shell

/-- How many words a positional argument takes. -/
inductive Arity where
  | one
  | optional
  | many
  | some
  /-- One word and all that follow it, flags included. -/
  | rest
deriving DecidableEq, Repr

/-- An argument known by its place. -/
structure Positional where
  name : String
  arity : Arity
  /-- The words that are allowed; any word if there are none. -/
  choices : List String
  help : String
deriving DecidableEq, Repr

/-- An argument known by its name, which takes no words. -/
structure Flag where
  names : List String
  help : String
  /-- Is the rest of the line not looked at any more? -/
  stops : Bool
deriving DecidableEq, Repr

/-- The names of a flag, as it is spoken of. -/
def Flag.label (f : Flag) (between : String) : String := between.intercalate f.names

/-- The arguments of a command. -/
structure Usage where
  positionals : List Positional
  flags : List Flag
deriving DecidableEq, Repr

/-- Why words cannot be matched. -/
inductive Refusal where
  /-- A flag that stops the matching was met. -/
  | stopped (f : Flag)
  | ambiguous (word : String) (flags : List String)
  | unwantedValue (f : Flag) (value : Text)
  | invalidChoice (argument : String) (word : String) (choices : List String)
  | missing (arguments : List String)
  | unrecognized (words : List String)
deriving DecidableEq, Repr

namespace Refusal

/-- Words in quotes, with commas between them. -/
def quotedList (ws : List String) : String :=
  ", ".intercalate (ws.map fun w => quoted w.toList)

/-- The words for a refusal. -/
def text : Refusal → String
  | stopped _ => ""
  | ambiguous w fs => "ambiguous option: " ++ w ++ " could match " ++ ", ".intercalate fs
  | unwantedValue f v =>
    "argument " ++ f.label "/" ++ ": ignored explicit argument " ++ quoted v
  | invalidChoice a w cs =>
    "argument " ++ a ++ ": invalid choice: " ++ quoted w.toList ++
      " (choose from " ++ quotedList cs ++ ")"
  | missing as => "the following arguments are required: " ++ ", ".intercalate as
  | unrecognized ws => "unrecognized arguments: " ++ " ".intercalate ws

/-- Is it a single argument that is refused? -/
def ofArgument : Refusal → Bool
  | unwantedValue _ _ | invalidChoice _ _ _ => true
  | _ => false

end Refusal

/-! ### What kind of word it is -/

/-- The part that a word can play. -/
inductive Mark where
  /-- A word for a positional argument. -/
  | word
  /-- The word after which no word is a flag. -/
  | divider
  /-- A flag.  The value behind an equals sign, or the letters behind a flag of one
  letter, come with it. -/
  | flag (f : Flag) (short : Bool) (value : Option Text)
  /-- It looks like a flag, but there is none of that name. -/
  | unknown
deriving DecidableEq, Repr

/-- A word and the part it plays. -/
abbrev Item := String × Mark

/-- Is the word read as a flag? -/
def Item.isFlag (i : Item) : Bool := i.2 != .word && i.2 != .divider

/-- Does the word look like a negative number? -/
def isNegativeNumber (w : Text) : Bool :=
  match w with
  | '-' :: t =>
    let t := if t.getLast? = some '\n' then t.dropLast else t
    let whole := t.takeWhile isDecimalDigit
    match t.dropWhile isDecimalDigit with
    | [] => !whole.isEmpty
    | '.' :: fraction => !fraction.isEmpty && fraction.all isDecimalDigit
    | _ => false
  | _ => false

/-- The name and the value around the first equals sign. -/
def assignment (w : Text) : Text × Option Text :=
  match w.dropWhile (· ≠ '=') with
  | [] => (w, none)
  | _ :: value => (w.takeWhile (· ≠ '='), some value)

namespace Usage

/-- The flags, each with one of its names. -/
def named (u : Usage) : List (String × Flag) :=
  u.flags.flatMap fun f => f.names.map fun n => (n, f)

/-- The flag of a name. -/
def flag? (u : Usage) (name : Text) : Option Flag :=
  (u.named.find? fun e => e.1 = String.ofList name).map (·.2)

/-- Is this the name of a flag of one letter? -/
def isShort (name : Text) : Bool := name.length == 2 && name[1]? != some '-'

/-- What a word that starts with a dash and is no name can mean as a flag: with two
dashes it can be the start of a name, with one a flag of one letter and what follows. -/
def shortened (u : Usage) (w : Text) : List (String × Mark) :=
  if w[1]? = some '-' then
    let (name, value) := assignment w
    (u.named.filter fun e => name.isPrefixOf e.1.toList).map fun e =>
      (e.1, .flag e.2 false value)
  else
    u.named.filterMap fun e =>
      if e.1.toList = w.take 2 then some (e.1, .flag e.2 true (some (w.drop 2)))
      else if w.isPrefixOf e.1.toList then some (e.1, .flag e.2 false none)
      else none

/-- The part that a word plays in front of the divider. -/
def mark (u : Usage) (w : String) : Except Refusal Mark :=
  let t := w.toList
  if t.head? ≠ some '-' then .ok .word
  else
    match u.flag? t with
    | some f => .ok (.flag f (isShort t) none)
    | none =>
      -- a lone dash is an ordinary word
      if t.length = 1 then .ok .word
      else
        match assignment t with
        | (name, some value) =>
          match u.flag? name with
          | some f => .ok (.flag f (isShort name) (some value))
          | none => guess u w t
        | (_, none) => guess u w t
where
  /-- The part of a word that is not the name of a flag. -/
  guess (u : Usage) (w : String) (t : Text) : Except Refusal Mark :=
    match u.shortened t with
    | [e] => .ok e.2
    | [] => .ok (if isNegativeNumber t || t.contains ' ' then .word else .unknown)
    | es => .error (.ambiguous w (es.map (·.1)))

/-- The parts that words play. -/
def marks (u : Usage) : List String → Except Refusal (List Item)
  | [] => .ok []
  | w :: ws =>
    if w = "--" then .ok ((w, .divider) :: ws.map fun v => (v, .word))
    else
      match u.mark w with
      | .error e => .error e
      | .ok m => (u.marks ws).map ((w, m) :: ·)

end Usage

/-! ### Serving positional arguments -/

/-- The numbers from `upper` down to `lower`. -/
def downFrom (upper lower : Nat) : List Nat :=
  (List.range (upper + 1 - lower)).map (upper - ·)

/-- How many of the next words an argument can take, the best number first.  Dividers next
to its words are taken along. -/
def Arity.options (a : Arity) (items : List Item) : List Nat :=
  let dividers := (items.takeWhile fun i => i.2 = .divider).length
  let behind := items.drop dividers
  let run := dividers + (behind.takeWhile fun i => !i.isFlag).length
  let hasWord := behind.head?.any fun i => i.2 == .word
  let trailing := ((behind.drop 1).takeWhile fun i => i.2 = .divider).length
  let single := if hasWord then downFrom (dividers + 1 + trailing) (dividers + 1) else []
  match a with
  | .one => single
  | .optional => single ++ downFrom dividers 0
  | .many => downFrom run 0
  | .some => if hasWord then downFrom run (dividers + 1) else []
  | .rest => if hasWord then downFrom items.length (dividers + 1) else []

/-- How many words each of some arguments takes, if all of them can be served. -/
def allocate : List Arity → List Item → Option (List Nat)
  | [], _ => some []
  | a :: as, items =>
    (a.options items).findSome? fun n => (allocate as (items.drop n)).map (n :: ·)

/-- How many words each of as many arguments as possible takes. -/
def allocateMost (ps : List Positional) (items : List Item) : List Nat :=
  let arities := ps.map (·.arity)
  ((downFrom ps.length 1).findSome? fun k => allocate (arities.take k) items).getD []

/-- What words were matched with. -/
structure Matched where
  values : List (String × List String)
  flags : List Flag
  extras : List String
deriving DecidableEq, Repr

namespace Matched

/-- Nothing has been matched. -/
def none : Matched := ⟨[], [], []⟩

/-- One more flag. -/
def addFlag (m : Matched) (f : Flag) : Except Refusal Matched :=
  if f.stops then .error (.stopped f) else .ok { m with flags := m.flags ++ [f] }

/-- Words that nothing was found for. -/
def addExtras (m : Matched) (ws : List String) : Matched := { m with extras := m.extras ++ ws }

/-- Was a flag of this name given? -/
def hasFlag (m : Matched) (name : String) : Bool := m.flags.any fun f => f.names.contains name

/-- The words of a positional argument. -/
def words (m : Matched) (name : String) : List String :=
  ((m.values.find? fun e => e.1 = name).map (·.2)).getD []

/-- The first word of a positional argument. -/
def word? (m : Matched) (name : String) : Option String := (m.words name).head?

end Matched

/-- The words of an argument: the first divider among them is dropped, except where the
rest of the line is taken. -/
def Positional.serve (p : Positional) (ws : List String) : Except Refusal (List String) :=
  let ws := if p.arity = .rest then ws else ws.erase "--"
  let checked := if p.arity = .rest then ws.take 1 else ws
  match checked.find? fun w => !p.choices.isEmpty && !p.choices.contains w with
  | some w => .error (.invalidChoice p.name w p.choices)
  | none => .ok ws

/-- Serves arguments with given numbers of words. -/
def serveAll (m : Matched) : List (Positional × Nat) → List Item → Except Refusal Matched
  | [], _ => .ok m
  | (p, n) :: rest, items =>
    match p.serve ((items.take n).map (·.1)) with
    | .error e => .error e
    | .ok ws => serveAll { m with values := m.values ++ [(p.name, ws)] } rest (items.drop n)

/-- A flag of one letter and the letters behind it, each of which must be a flag too.  What
stands behind an equals sign is read in the same way. -/
def letters (u : Usage) (f : Flag) : Text → Except Refusal (List Flag)
  | [] => .error (.unwantedValue f [])
  | c :: rest =>
    match u.flag? ['-', c] with
    | none => .error (.unwantedValue f (c :: rest))
    | some g => if rest.isEmpty then .ok [f, g] else (letters u g rest).map (f :: ·)

/-- Takes a word that was read as a flag. -/
def takeFlag (u : Usage) (m : Matched) (i : Item) : Except Refusal Matched :=
  match i.2 with
  | .flag f _ none => m.addFlag f
  | .flag f false (some value) => .error (.unwantedValue f value)
  | .flag f true (some value) =>
    match letters u f value with
    | .error e => .error e
    | .ok fs => fs.foldlM (fun m f => m.addFlag f) m
  | _ => .ok (m.addExtras [i.1])

/-- The number of words that arguments with given numbers of words get together. -/
def wordCount (counts : List Nat) : Nat := counts.foldr (· + ·) 0

/-- Matches the words that are left; `ps` are the arguments not yet served. -/
def matchItems (u : Usage) (m : Matched) (ps : List Positional) (items : List Item) :
    Except Refusal (Matched × List Positional) :=
  let before := items.findIdx Item.isFlag
  if hb : before < items.length then
    if before = 0 then
      match takeFlag u m items[before] with
      | .error e => .error e
      | .ok m => matchItems u m ps (items.drop 1)
    else
      match serveAll m (ps.zip (allocateMost ps items)) items with
      | .error e => .error e
      | .ok m =>
        let left := ps.drop (allocateMost ps items).length
        -- words in front of a flag go to arguments as long as these take any
        if _ : 0 < wordCount (allocateMost ps items) then
          matchItems u m left (items.drop (wordCount (allocateMost ps items)))
        else
          let m := m.addExtras ((items.take before).map (·.1))
          match takeFlag u m items[before] with
          | .error e => .error e
          | .ok m => matchItems u m left (items.drop (before + 1))
  else
    let counts := allocateMost ps items
    match serveAll m (ps.zip counts) items with
    | .error e => .error e
    | .ok m => .ok (m.addExtras ((items.drop (wordCount counts)).map (·.1)), ps.drop counts.length)
termination_by items.length
decreasing_by all_goals (simp only [List.length_drop]; omega)

/-- Matches words against the arguments of a command.  An argument that needs a word must
get one. -/
def Usage.match (u : Usage) (ws : List String) : Except Refusal Matched :=
  match u.marks ws with
  | .error e => .error e
  | .ok items =>
    match matchItems u .none u.positionals items with
    | .error e => .error e
    | .ok (m, left) =>
      let missing := left.filter fun p => p.arity ≠ .optional && p.arity ≠ .rest
      if missing.isEmpty then .ok m else .error (.missing (missing.map (·.name)))

/-- Matches words against the arguments of a command, and refuses words that nothing was
found for. -/
def Usage.matchAll (u : Usage) (ws : List String) : Except Refusal Matched :=
  match u.match ws with
  | .error e => .error e
  | .ok m => if m.extras.isEmpty then .ok m else .error (.unrecognized m.extras)

end RegexAutomata.Shell
