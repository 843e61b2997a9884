/-
What can be wrong with a pattern.

Each fault is a cause of its own; a cause belongs to one of six kinds and has one
message.  A `PatternError` adds the text that was being processed when the fault was
found and, where there is one, the index in that text.  `describe` is the one place
that decides how message, text and index are put together.
-/
import RegexAutomata.Alphabet

namespace RegexAutomata

/-- The kinds of fault that a reader of an error is told about. -/
inductive FaultKind where
  | general
  | unbalancedParentheses
  | invalidRepetitionRange
  | invalidCharacterRange
  | emptyOperandStack
  | unsupportedSymbol
deriving DecidableEq, Repr

namespace FaultKind

/-- All the kinds. -/
def all : List FaultKind :=
  [.general, .unbalancedParentheses, .invalidRepetitionRange, .invalidCharacterRange,
    .emptyOperandStack, .unsupportedSymbol]

/-- The name under which a kind is reported. -/
def name : FaultKind → String
  | .general => "PatternError"
  | .unbalancedParentheses => "UnbalancedParentheses"
  | .invalidRepetitionRange => "InvalidRepetitionRange"
  | .invalidCharacterRange => "InvalidCharacterRange"
  | .emptyOperandStack => "EmptyOperandStack"
  | .unsupportedSymbol => "UnsupportedSymbol"

end FaultKind

/-- The ways in which a pattern can be wrong. -/
inductive Fault where
  /-- An escape marker ends the pattern. -/
  | danglingEscape
  /-- A character that is neither in the alphabet nor reserved. -/
  | unsupported (c : Char)
  /-- The character `c` has no operand before it. -/
  | noOperand (c : Char)
  /-- The operator `c` finds too few operands. -/
  | missingOperand (c : Char)
  /-- There is nothing to match at all. -/
  | emptyExpression
  /-- Two operands with no operator between them. -/
  | missingOperator
  /-- A closing parenthesis that closes nothing. -/
  | unmatchedClosing
  /-- An opening parenthesis that is never closed. -/
  | unclosed
  /-- A parenthesis where an operator is applied. -/
  | unmatched
  /-- The text before a dash is not a single character. -/
  | lowerBound (part : Text)
  /-- The text after a dash is not a single character. -/
  | upperBound
  /-- A range whose end comes before its start. -/
  | descending (low high : Char)
  /-- A bracket that does not hold two bounds. -/
  | malformedRepetition
  /-- A repetition that asks for more than it allows. -/
  | minimumExceedsMaximum (lower upper : Nat)
deriving DecidableEq, Repr

namespace Fault

/-- The kind of a fault. -/
def kind : Fault → FaultKind
  | .danglingEscape | .unsupported _ => .unsupportedSymbol
  | .noOperand _ | .missingOperand _ | .emptyExpression => .emptyOperandStack
  | .missingOperator => .general
  | .unmatchedClosing | .unclosed | .unmatched => .unbalancedParentheses
  | .lowerBound _ | .upperBound | .descending _ _ => .invalidCharacterRange
  | .malformedRepetition | .minimumExceedsMaximum _ _ => .invalidRepetitionRange

/-- The words for a fault. -/
def message : Fault → String
  | .danglingEscape => "dangling escape marker"
  | .unsupported c => s!"unsupported symbol '{c}'"
  | .noOperand c => s!"'{c}' has no operand"
  | .missingOperand c => s!"missing operand for '{c}'"
  | .emptyExpression => "empty expression"
  | .missingOperator => "missing operator between operands"
  | .unmatchedClosing => "unmatched closing parenthesis"
  | .unclosed => "unclosed parenthesis"
  | .unmatched => "unmatched parenthesis"
  | .lowerBound part => "invalid lower bound '" ++ String.ofList part ++ "' for range"
  | .upperBound => "invalid upper bound for range"
  | .descending low high => s!"descending range '{low}-{high}'"
  | .malformedRepetition => "malformed repetition range"
  | .minimumExceedsMaximum lower upper => s!"minimum {lower} exceeds maximum {upper}"

end Fault

/-- A fault, the text in which it was found and its index there.  An index can be
negative only where a caller asks for an operand in front of the text. -/
structure PatternError where
  fault : Fault
  pattern : Text
  position : Option Int
deriving DecidableEq, Repr

namespace PatternError

/-- A message, followed by the place it speaks of as far as that is known. -/
def describe (message : String) (pattern : Option String) (position : Option Int) : String :=
  match pattern, position with
  | none, _ => message
  | some p, none => s!"{message} in '{p}'"
  | some p, some n => s!"{message} at position {n} of '{p}'"

/-- The full text of an error. -/
def text (e : PatternError) : String :=
  describe e.fault.message (some (String.ofList e.pattern)) e.position

/-- The error with a fault at an index of a text. -/
def atIndex (fault : Fault) (pattern : Text) (index : Nat) : PatternError :=
  ⟨fault, pattern, some (index : Int)⟩

/-- The error with a fault of a text as a whole. -/
def ofWhole (fault : Fault) (pattern : Text) : PatternError :=
  ⟨fault, pattern, none⟩

end PatternError

end RegexAutomata
