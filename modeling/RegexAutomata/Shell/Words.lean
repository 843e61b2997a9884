/-
Splitting a command line into words.

Words are separated by spaces, tabs and line ends.  Single quotes keep everything
between them; between double quotes a backslash escapes only the quote and itself; and
outside of quotes it escapes any character.
-/
import RegexAutomata.Alphabet

namespace RegexAutomata.Shell

/-- Why a line cannot be split. -/
inductive WordError where
  | openQuote
  | nothingEscaped
deriving DecidableEq, Repr

namespace WordError

/-- The words for an error. -/
def text : WordError → String
  | openQuote => "No closing quotation"
  | nothingEscaped => "No escaped character"

end WordError

/-- Does this character separate words? -/
def isSeparator (c : Char) : Bool := c == ' ' || c == '\t' || c == '\r' || c == '\n'

/-- One more character of the word being read, which is kept last character first. -/
def extend (word : Option Text) (c : Char) : Option Text := some (c :: word.getD [])

/-- Splits the rest of a line.  There can be an open quote, the character before can have
been an escaping backslash, and a word can have been begun. -/
def wordsFrom (quote : Option Char) (escaping : Bool) (word : Option Text) :
    Text → Except WordError (List Text)
  | [] =>
    if escaping then .error .nothingEscaped
    else if quote.isSome then .error .openQuote
    else .ok (word.toList.map List.reverse)
  | c :: rest =>
    match quote with
    | some q =>
      if escaping then
        -- a backslash that escapes nothing stays
        let word := if c = '\\' ∨ c = q then word else extend word '\\'
        wordsFrom quote false (extend word c) rest
      -- an empty pair of quotes is a word too
      else if c = q then wordsFrom none false (some (word.getD [])) rest
      else if c = '\\' ∧ q = '"' then wordsFrom quote true word rest
      else wordsFrom quote false (extend word c) rest
    | none =>
      if escaping then wordsFrom none false (extend word c) rest
      else if isSeparator c then
        match word with
        | none => wordsFrom none false none rest
        | some w => (wordsFrom none false none rest).map (w.reverse :: ·)
      else if c = '\\' then wordsFrom none true word rest
      else if c = '\'' ∨ c = '"' then wordsFrom (some c) false word rest
      else wordsFrom none false (extend word c) rest

/-- The words of a command line. -/
def words (line : Text) : Except WordError (List Text) := wordsFrom none false none line

end RegexAutomata.Shell
