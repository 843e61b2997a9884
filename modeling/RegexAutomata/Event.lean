/-
What a compilation reports while it works.
-/
import RegexAutomata.Alphabet

namespace RegexAutomata

/-- A remark on one step of a compilation. -/
inductive Event where
  /-- The canonical form of a pattern was known already. -/
  | patternKnown (pattern : Text)
  /-- A pattern was given its canonical form. -/
  | canonized (pattern canonical : Text)
  /-- The automaton of a canonical pattern was known already. -/
  | automatonKnown (canonical : Text)
  /-- An automaton with so many vertices was built. -/
  | compiled (canonical : Text) (vertices : Nat)
  /-- The complement of the automaton that starts at a given vertex was known already. -/
  | complementKnown (start : Int)
  /-- The subset construction has built so many vertices. -/
  | determinized (vertices symbols : Nat)
deriving DecidableEq, Repr

end RegexAutomata
