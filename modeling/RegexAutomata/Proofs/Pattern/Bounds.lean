/-
Reading back the bounds of a repetition.

Bounds are written with blanks around each of them, and with any digits, leading zeros included
(`WrittenBounds`).  Reading them gives the numbers that the digits stand for and leaves what
follows the closing bracket (`WrittenBounds.parse?_text_append`).
-/
import Mathlib.Tactic.Set
import RegexAutomata.Pattern.Repetition

namespace RegexAutomata

/-! ### One bound -/

section

variable {p : Char → Bool} {xs rest : Text}

theorem takeWhile_append_of_stop (hxs : ∀ c ∈ xs, p c = true)
    (hrest : ∀ c ∈ rest.head?, p c = false) : (xs ++ rest).takeWhile p = xs := by
  rw [List.takeWhile_append_of_pos hxs]
  cases rest with
  | nil => rw [List.takeWhile_nil, List.append_nil]
  | cons c rest =>
    have hc : p c = false := hrest c rfl
    rw [List.takeWhile_cons_of_neg (by rw [hc]; decide), List.append_nil]

theorem dropWhile_append_of_stop (hxs : ∀ c ∈ xs, p c = true)
    (hrest : ∀ c ∈ rest.head?, p c = false) : (xs ++ rest).dropWhile p = rest := by
  rw [List.dropWhile_append_of_pos hxs]
  cases rest with
  | nil => rfl
  | cons c rest =>
    have hc : p c = false := hrest c rfl
    rw [List.dropWhile_cons_of_neg (by rw [hc]; decide)]

end

theorem isBlank_of_isDigit {c : Char} (h : Bounds.isDigit c = true) : isBlank c = false := by
  simp only [Bounds.isDigit, Bool.and_eq_true, decide_eq_true_eq] at h
  have hlow : 48 ≤ c.toNat := h.1
  have hhigh : c.toNat ≤ 57 := h.2
  simp only [isBlank, CodeRanges.holds, blankRanges, CodeRanges.hasCode]
  simp
  omega

theorem isDigit_of_isBlank {c : Char} (h : isBlank c = true) : Bounds.isDigit c = false := by
  refine eq_false_of_ne_true fun hdigit => ?_
  rw [isBlank_of_isDigit hdigit] at h
  cases h

/-- The number that digits stand for, if there are any. -/
def Bounds.ofDigits? (ds : Text) : Option Nat := if ds.isEmpty then none else some (ofDigits ds)

section

variable {before digits after rest : Text}

/-- Where no digit stands, blanks are dropped all the same. -/
theorem readBound_blanks (hbefore : ∀ c ∈ before, isBlank c = true)
    (hblank : ∀ c ∈ rest.head?, isBlank c = false)
    (hdigit : ∀ c ∈ rest.head?, Bounds.isDigit c = false) :
    Bounds.readBound (before ++ rest) = (none, rest) := by
  have hnone : ∀ p : Char → Bool, ∀ c ∈ ([] : Text), p c = true := fun _ _ hc => by cases hc
  have hdrop : dropBlanks (before ++ rest) = rest := dropWhile_append_of_stop hbefore hblank
  have htake : rest.takeWhile Bounds.isDigit = [] := takeWhile_append_of_stop (hnone _) hdigit
  have hleave : rest.dropWhile Bounds.isDigit = rest := dropWhile_append_of_stop (hnone _) hdigit
  have hagain : dropBlanks rest = rest := dropWhile_append_of_stop (hnone _) hblank
  simp only [Bounds.readBound, hdrop, htake, hleave, hagain]
  rfl

theorem readBound_digits {d : Char} {ds : Text} (hbefore : ∀ c ∈ before, isBlank c = true)
    (hdigits : ∀ c ∈ d :: ds, Bounds.isDigit c = true) (hafter : ∀ c ∈ after, isBlank c = true)
    (hblank : ∀ c ∈ rest.head?, isBlank c = false)
    (hdigit : ∀ c ∈ rest.head?, Bounds.isDigit c = false) :
    Bounds.readBound (before ++ (d :: ds ++ (after ++ rest))) =
      (some (Bounds.ofDigits (d :: ds)), rest) := by
  have hfirst : ∀ c ∈ (d :: ds ++ (after ++ rest)).head?, isBlank c = false := by
    rintro _ ⟨⟩
    exact isBlank_of_isDigit (hdigits d (List.mem_cons_self ..))
  have hstop : ∀ c ∈ (after ++ rest).head?, Bounds.isDigit c = false := by
    cases after with
    | nil => exact hdigit
    | cons c after =>
      rintro _ ⟨⟩
      exact isDigit_of_isBlank (hafter c (List.mem_cons_self ..))
  have hdrop : dropBlanks (before ++ (d :: ds ++ (after ++ rest))) = d :: ds ++ (after ++ rest) :=
    dropWhile_append_of_stop hbefore hfirst
  have htake : (d :: ds ++ (after ++ rest)).takeWhile Bounds.isDigit = d :: ds :=
    takeWhile_append_of_stop hdigits hstop
  have hleave : (d :: ds ++ (after ++ rest)).dropWhile Bounds.isDigit = after ++ rest :=
    dropWhile_append_of_stop hdigits hstop
  have hrest : dropBlanks (after ++ rest) = rest := dropWhile_append_of_stop hafter hblank
  simp only [Bounds.readBound, hdrop, htake, hleave, hrest]
  rfl

/-- A bound is read together with the blanks around it. -/
theorem readBound_append (hbefore : ∀ c ∈ before, isBlank c = true)
    (hdigits : ∀ c ∈ digits, Bounds.isDigit c = true) (hafter : ∀ c ∈ after, isBlank c = true)
    (hblank : ∀ c ∈ rest.head?, isBlank c = false)
    (hdigit : ∀ c ∈ rest.head?, Bounds.isDigit c = false) :
    Bounds.readBound (before ++ digits ++ after ++ rest) = (Bounds.ofDigits? digits, rest) := by
  cases digits with
  | nil =>
    -- the blanks on both sides are dropped at once
    have hblanks : ∀ c ∈ before ++ after, isBlank c = true := by
      intro c hc
      rcases List.mem_append.1 hc with hc | hc
      · exact hbefore c hc
      · exact hafter c hc
    rw [List.append_nil]
    exact readBound_blanks hblanks hblank hdigit
  | cons d ds =>
    rw [List.append_assoc, List.append_assoc]
    exact readBound_digits hbefore hdigits hafter hblank hdigit

end

/-! ### Both bounds -/

/-- Bounds as they are written, the first of which is not above the second one. -/
structure WrittenBounds where
  beforeLower : Text
  lower : Text
  afterLower : Text
  beforeUpper : Text
  upper : Text
  afterUpper : Text
  blanks : ∀ t ∈ [beforeLower, afterLower, beforeUpper, afterUpper], ∀ c ∈ t, isBlank c = true
  digits : ∀ t ∈ [lower, upper], ∀ c ∈ t, Bounds.isDigit c = true
  ordered : ∀ m ∈ Bounds.ofDigits? lower, ∀ n ∈ Bounds.ofDigits? upper, m ≤ n

namespace WrittenBounds

/-- The bounds without their spelling. -/
def bounds (b : WrittenBounds) : Bounds := ⟨Bounds.ofDigits? b.lower, Bounds.ofDigits? b.upper⟩

/-- What stands behind the opening bracket. -/
def inside (b : WrittenBounds) : Text :=
  b.beforeLower ++ b.lower ++ b.afterLower ++
    ',' :: (b.beforeUpper ++ b.upper ++ b.afterUpper ++ [']'])

/-- What is written. -/
def text (b : WrittenBounds) : Text := '[' :: b.inside

theorem parse?_text_append (b : WrittenBounds) (rest : Text) :
    Bounds.parse? (b.text ++ rest) = some (b.bounds, rest) := by
  set behind := b.beforeUpper ++ b.upper ++ b.afterUpper ++ ']' :: rest with hbehind
  have hlower : Bounds.readBound (b.beforeLower ++ b.lower ++ b.afterLower ++ ',' :: behind) =
      (Bounds.ofDigits? b.lower, ',' :: behind) := by
    refine readBound_append (b.blanks _ (by simp)) (b.digits _ (by simp)) (b.blanks _ (by simp))
      ?_ ?_
    · rintro _ ⟨⟩
      decide
    · rintro _ ⟨⟩
      decide
  have hupper : Bounds.readBound behind = (Bounds.ofDigits? b.upper, ']' :: rest) := by
    refine readBound_append (b.blanks _ (by simp)) (b.digits _ (by simp)) (b.blanks _ (by simp))
      ?_ ?_
    · rintro _ ⟨⟩
      decide
    · rintro _ ⟨⟩
      decide
  have htext : b.text ++ rest =
      '[' :: (b.beforeLower ++ b.lower ++ b.afterLower ++ ',' :: behind) := by
    simp only [text, inside, hbehind, List.cons_append, List.append_assoc, List.nil_append]
  rw [htext]
  unfold Bounds.parse?
  simp only [hlower, hupper]
  rfl

end WrittenBounds

end RegexAutomata
