/-
The tokens of a canonical pattern.

`scan` reads a text from the left and gives the tokens with the index of their first
character.  If it meets something that is no token it stops there, and returns what it
has read so far together with the fault and its index.
-/
import RegexAutomata.Atom
import RegexAutomata.PatternError

namespace RegexAutomata

/-- The operators, parentheses included. -/
inductive Operator where
  | concat
  | union
  | star
  | complement
  | opening
  | closing
deriving DecidableEq, Repr

namespace Operator

/-- The character that stands for an operator. -/
def char : Operator → Char
  | concat => '&'
  | union => '|'
  | star => '*'
  | complement => '!'
  | opening => '('
  | closing => ')'

/-- The operator that a character stands for. -/
def ofChar? (c : Char) : Option Operator :=
  if c = '&' then some concat
  else if c = '|' then some union
  else if c = '*' then some star
  else if c = '!' then some complement
  else if c = '(' then some opening
  else if c = ')' then some closing
  else none

/-- The number of operands that an operator needs. -/
def arity : Operator → Nat
  | concat | union => 2
  | _ => 1

/-- Must the operator on top of the stack be applied before `other` is put there? -/
def precedes (top other : Operator) : Bool :=
  match top, other with
  | star, star => false
  | star, _ => true
  | concat, union => true
  | _, opening => false
  | closing, _ => true
  | complement, _ => true
  | _, _ => false

end Operator

/-- An element of a canonical pattern. -/
inductive Token where
  | atom (a : Atom)
  | op (o : Operator)
deriving DecidableEq, Repr

namespace Token

/-- The token that a single character is, if it is one. -/
def ofChar? (a : Alphabet) (c : Char) : Option Token :=
  if c = emptyMark then some (atom .empty)
  else if c = anyMark then some (atom .any)
  else if a.hasChar c then some (atom (.one (Symbol.ofChar c)))
  else (Operator.ofChar? c).map op

end Token

/-- A fault and the index at which it was found. -/
structure Stop where
  position : Nat
  fault : Fault
deriving DecidableEq, Repr

/-- The error that reports a fault in a text. -/
def Stop.toError (t : Text) (s : Stop) : PatternError := .atIndex s.fault t s.position

/-- The tokens of a text as far as it could be read, and what stopped the reading. -/
structure Scanned where
  tokens : List (Nat × Token)
  stop : Option Stop
deriving DecidableEq, Repr

/-- One more token in front. -/
def Scanned.cons (position : Nat) (t : Token) (s : Scanned) : Scanned :=
  { s with tokens := (position, t) :: s.tokens }

/-- Reads the part of a text that starts at a given index. -/
def scanFrom (a : Alphabet) (position : Nat) : Text → Scanned
  | [] => ⟨[], none⟩
  | c :: rest =>
    if c = escapeMark then
      match rest with
      | [] => ⟨[], some ⟨position, .danglingEscape⟩⟩
      | d :: rest =>
        (scanFrom a (position + 2) rest).cons position (.atom (.one (Symbol.ofChar d)))
    else
      match Token.ofChar? a c with
      | some t => (scanFrom a (position + 1) rest).cons position t
      | none => ⟨[], some ⟨position, .unsupported c⟩⟩

/-- Reads a whole text. -/
def scan (a : Alphabet) (t : Text) : Scanned := scanFrom a 0 t

end RegexAutomata
