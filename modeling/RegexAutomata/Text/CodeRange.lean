/-
Classes of characters given by ranges of code points.
-/

namespace RegexAutomata

/-- Ranges of code points in increasing order, each with its first and last member. -/
abbrev CodeRanges := List (Nat × Nat)

namespace CodeRanges

/-- Does one of the ranges hold this code point?  The search ends at the first range that
lies above it. -/
def hasCode (n : Nat) : CodeRanges → Bool
  | [] => false
  | (low, high) :: rest => low ≤ n && (n ≤ high || hasCode n rest)

/-- Does one of the ranges hold this character? -/
def holds (rs : CodeRanges) (c : Char) : Bool := hasCode c.toNat rs

end CodeRanges

end RegexAutomata
