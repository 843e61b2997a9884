/-
Searching lines of text.

A line matches a phrase if some part of it is accepted by the phrase's automaton, which
is what `wrapPhrase` makes a pattern of.  Lines are numbered from one and shown without
the line feeds and carriage returns at their end.
-/
import RegexAutomata.Generator

namespace RegexAutomata

/-- A pattern for the lines that contain a phrase. -/
def wrapPhrase (phrase : Text) : Text := ".*(".toList ++ phrase ++ ").*".toList

/-- Is this a line feed or a carriage return? -/
def isLineEnd (c : Char) : Bool := c == '\n' || c == '\r'

/-- A line without the line feeds and carriage returns at its end. -/
def chomp (line : Text) : Text := (line.reverse.dropWhile isLineEnd).reverse

/-- The lines of a text, where a line feed, a carriage return, or the one after the other
ends a line; `line` is the one being read, last character first. -/
def linesFrom (line : Text) : Text → List Text
  | [] => if line.isEmpty then [] else [line.reverse]
  -- a carriage return and a line feed end one line, not two
  | '\r' :: '\n' :: rest => line.reverse :: linesFrom [] rest
  | c :: rest =>
    if isLineEnd c then line.reverse :: linesFrom [] rest else linesFrom (c :: line) rest

/-- The lines of a text, without what ends them. -/
def textLines (t : Text) : List Text := linesFrom [] t

/-- A line and its number. -/
abbrev Match := Nat × Text

namespace Generator

/-- The lines that an automaton accepts, with their numbers, where the first one has a
given number. -/
def searchFrom (h : Handle) (number : Nat) (g : Generator) : List Text → Generator × List Match
  | [] => (g, [])
  | line :: lines =>
    let line := chomp line
    let (g, found) := g.accepts h (Text.symbols line)
    let (g, rest) := searchFrom h (number + 1) g lines
    (g, if found then (number, line) :: rest else rest)

/-- The lines that an automaton accepts, with their numbers. -/
def searchLines (g : Generator) (h : Handle) (lines : List Text) : Generator × List Match :=
  g.searchFrom h 1 lines

/-- An automaton for the lines that contain a phrase, which is taken literally on
demand. -/
def phrase (g : Generator) (p : Text) (literal : Bool) : Generator × Except BuildError Handle :=
  g.generate (wrapPhrase (if literal then escape g.alphabet p else p))

/-- The lines of a text that contain a phrase, with their numbers. -/
def searchText (g : Generator) (p : Text) (literal : Bool) (content : Text) :
    Generator × Except BuildError (List Match) :=
  match g.phrase p literal with
  | (g, .error e) => (g, .error e)
  | (g, .ok h) =>
    let (g, found) := g.searchLines h (textLines content)
    (g, .ok found)

end Generator

end RegexAutomata
