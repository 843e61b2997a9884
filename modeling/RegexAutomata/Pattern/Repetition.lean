/-
Bounds of a repetition, written `[m,n]`.

Either bound may be left out, and blanks may stand around each of them.  `parse?` reads
the bounds at the start of a text and returns what follows the closing bracket;
`render` writes bounds with given spacing.
-/
import RegexAutomata.Text.Blank

namespace RegexAutomata

/-- How often an operand is repeated: at least `lower` and at most `upper` times. -/
structure Bounds where
  lower : Option Nat
  upper : Option Nat
deriving DecidableEq, Repr

namespace Bounds

/-- Is this one of the ten digits of ASCII? -/
def isDigit (c : Char) : Bool := '0' ≤ c && c ≤ '9'

/-- The number that decimal digits stand for. -/
def ofDigits (ds : Text) : Nat := ds.foldl (fun n c => 10 * n + (c.toNat - '0'.toNat)) 0

/-- A bound at the start of a text with the blanks around it, and the rest. -/
def readBound (t : Text) : Option Nat × Text :=
  let u := dropBlanks t
  let ds := u.takeWhile isDigit
  (if ds.isEmpty then none else some (ofDigits ds), dropBlanks (u.dropWhile isDigit))

/-- The bounds at the start of a text, and the text after the closing bracket. -/
def parse? : Text → Option (Bounds × Text)
  | '[' :: t =>
    match readBound t with
    | (lower, ',' :: u) =>
      match readBound u with
      | (upper, ']' :: rest) => some (⟨lower, upper⟩, rest)
      | _ => none
    | _ => none
  | _ => none

theorem length_readBound_le (t : Text) : (readBound t).2.length ≤ t.length := by
  have h1 := length_dropBlanks_le t
  have h2 : ((dropBlanks t).dropWhile isDigit).length ≤ (dropBlanks t).length :=
    (List.dropWhile_sublist _).length_le
  have h3 := length_dropBlanks_le ((dropBlanks t).dropWhile isDigit)
  simp only [readBound]
  omega

/-- Reading bounds uses up the two brackets and the comma at least. -/
theorem length_lt_of_parse? {t rest : Text} {b : Bounds} (h : parse? t = some (b, rest)) :
    rest.length + 2 < t.length := by
  unfold parse? at h
  split at h
  · rename_i t
    split at h
    · rename_i lower u h1
      split at h
      · rename_i upper r h2
        have l1 := length_readBound_le t
        have l2 := length_readBound_le u
        simp only [Option.some.injEq, Prod.mk.injEq] at h
        obtain ⟨_, rfl⟩ := h
        rw [h1] at l1
        rw [h2] at l2
        simp only [List.length_cons] at l1 l2 ⊢
        omega
      · cases h
    · cases h
  · cases h

/-- The spelling of a bound. -/
def boundText (bound : Option Nat) : Text := bound.elim [] (Nat.toDigits 10)

/-- Bounds written out, with four given runs of blanks around them. -/
def render (b : Bounds) (s₁ s₂ s₃ s₄ : Text) : Text :=
  '[' :: s₁ ++ boundText b.lower ++ s₂ ++ ',' :: s₃ ++ boundText b.upper ++ s₄ ++ [']']

end Bounds

end RegexAutomata
