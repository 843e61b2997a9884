/-
The operand that ends at a given place of a text.

A shorthand applies to what stands right before it: a literal, an escaped pair, a
group from its opening to its closing parenthesis, or one of these with stars behind
it.  `operand` finds it by reading pieces from the last one backwards, so escaped
parentheses are never counted; `operandAt` asks for the operand at an index of a text.
-/
import RegexAutomata.Pattern.Piece
import RegexAutomata.PatternError

namespace RegexAutomata

open Piece

/-- Why no operand ends at some place. -/
inductive OperandFault where
  /-- The character at this index has no operand before it. -/
  | missing (index : Nat)
  /-- The closing parenthesis at this index has no partner. -/
  | unmatched (index : Nat)
deriving DecidableEq, Repr

/-- The error that reports a fault in a text.  The character that lacks an operand is
looked up there; `last` stands in for it one place past the end. -/
def OperandFault.toError (t : Text) (last : Char) : OperandFault → PatternError
  | missing k => .atIndex (.noOperand (t.getD k last)) t k
  | unmatched k => .atIndex .unmatchedClosing t k

/-- What is left of a group when its last piece, the closing parenthesis, has been read:
the pieces back to the opening one, last first, where `depth` inner groups are
still open. -/
def groupBack (depth : Nat) : List Piece → Option (List Piece)
  | [] => none
  | p :: ps =>
    -- read backwards, a closing parenthesis opens a group
    if p = bare ')' then (groupBack (depth + 1) ps).map (p :: ·)
    else if p = bare '(' then
      match depth with
      | 0 => some [p]
      | d + 1 => (groupBack d ps).map (p :: ·)
    else (groupBack depth ps).map (p :: ·)

/-- The operand at the end of a text, whose pieces are given last first, as are those
of the result. -/
def operand : List Piece → Except OperandFault (List Piece)
  | [] => .error (.missing 0)
  | escaped c :: _ => .ok [escaped c]
  | bare c :: ps =>
    -- a star belongs to the operand that it applies to
    if c = '*' then (operand ps).map (bare c :: ·)
    else if c = ')' then
      match groupBack 0 ps with
      | some group => .ok (bare c :: group)
      | none => .error (.unmatched (width ps))
    else if isOperator c || isShorthand c || c == escapeMark then
      .error (.missing (width ps + 1))
    else .ok [bare c]

/-- The characters of the operand at the end of a text. -/
def operandOf (before : Text) : Except OperandFault Text :=
  (operand (split before).reverse).map fun ps => join ps.reverse

/-! ### Operands by index -/

/-- The character at an index, where negative ones count from the end. -/
def charAt (t : Text) (index : Int) : Option Char :=
  if 0 ≤ index then t[index.toNat]?
  else if 0 ≤ index + t.length then t[(index + t.length).toNat]?
  else none

/-- Why `operandAt` gives no operand. -/
inductive OperandFailure where
  /-- The index, or the character that an error would name, is outside the text. -/
  | outOfRange
  | pattern (e : PatternError)
deriving DecidableEq, Repr

/-- The fault that the character at an index has no operand, if there is such a
character. -/
def lacksOperand (t : Text) (index : Int) : OperandFailure :=
  match charAt t index with
  | some c => .pattern ⟨.noOperand c, t, some index⟩
  | none => .outOfRange

/-- Does the text end in an escape marker that escapes nothing? -/
def endsDangling (t : Text) : Bool := (split t).getLast? == some (bare escapeMark)

/-- The operand whose last character has the given index.  In front of the text there is
none; right behind it there is only what a dangling marker escapes, which is the
marker itself. -/
def operandAt (t : Text) (index : Int) : Except OperandFailure Text :=
  if index < 0 then .error (lacksOperand t (index + 1))
  else if index < t.length then
    match operandOf (t.take (index.toNat + 1)) with
    | .ok part => .ok part
    | .error (.missing k) => .error (lacksOperand t k)
    | .error (.unmatched k) => .error (.pattern (.atIndex .unmatchedClosing t k))
  else if index = t.length ∧ endsDangling t then .ok [escapeMark]
  else .error .outOfRange

end RegexAutomata
