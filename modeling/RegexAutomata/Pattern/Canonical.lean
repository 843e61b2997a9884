/-
The canonical form of a pattern.

A pattern that is easy to write becomes one that is easy to compile in three passes:
abbreviations are spelled out, pairs of adjacent negations are dropped, and `&` is put
between adjacent operands.  The empty pattern becomes the mark of the empty string.
-/
import RegexAutomata.Pattern.Shorthand

namespace RegexAutomata

open Piece

/-! ### Negations -/

/-- Pieces without their pairs of adjacent negations. -/
def cancelNegations : List Piece → List Piece
  | [] => []
  | [p] => [p]
  | p :: q :: rest =>
    if p = bare '!' ∧ q = bare '!' then cancelNegations rest
    else p :: cancelNegations (q :: rest)

/-- A pattern without its pairs of adjacent negations: negating twice changes nothing. -/
def dropDoubleNegations (t : Text) : Text := join (cancelNegations (split t))

/-! ### Concatenation -/

namespace Piece

/-- Can an operand end with this piece? -/
def endsOperand : Piece → Bool
  | escaped _ => true
  | bare c => !isOperator c || c == '*' || c == ')'

/-- Can an operand start with this piece? -/
def startsOperand : Piece → Bool
  | escaped _ => true
  | bare c => !isOperator c || c == '(' || c == '!'

end Piece

/-- Pieces with `&` between each end of an operand and the start of the next one. -/
def joinOperands : List Piece → List Piece
  | [] => []
  | [p] => [p]
  | p :: q :: rest =>
    if p.endsOperand && q.startsOperand then p :: bare '&' :: joinOperands (q :: rest)
    else p :: joinOperands (q :: rest)

/-- A pattern with its concatenations made explicit. -/
def markConcatenations (t : Text) : Text := join (joinOperands (split t))

/-! ### All three passes -/

/-- The canonical form of a pattern. -/
def canonical (a : Alphabet) (t : Text) : Except PatternError Text :=
  if t.isEmpty then .ok [emptyMark]
  else (Shorthand.expand a t).map fun u => markConcatenations (dropDoubleNegations u)

/-- A pattern for exactly one text: what the alphabet lacks is escaped. -/
def escape (a : Alphabet) (t : Text) : Text :=
  t.flatMap fun c => if a.hasChar c then [c] else [escapeMark, c]

end RegexAutomata
