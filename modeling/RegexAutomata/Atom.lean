/-
What a single transition can match.
-/
import RegexAutomata.Alphabet

namespace RegexAutomata

/-- The label of a transition, and the smallest expressions of a pattern. -/
inductive Atom where
  /-- The empty string. -/
  | empty
  /-- One given symbol. -/
  | one (s : Symbol)
  /-- Any one symbol. -/
  | any
deriving DecidableEq, Repr

end RegexAutomata
