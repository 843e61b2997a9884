/-
Spelling out abbreviations.

`expand` reads a pattern once from the left.  It puts every escaped pair into
parentheses and replaces `x+` by `(xx*)`, `x?` by `(x|#)`, `a-c` by `(c|b|a)`,
`x[m,n]` by the alternatives with `n` down to `m` copies of `x`, and `x[m,]` by `m`
copies followed by `x*`, where `x` is the operand that ends before the abbreviation.
What has been read and replaced is never read again, so each step (`next`) leaves a
shorter rest of the pattern (`length_next_le`) and the reading ends.
-/
import RegexAutomata.Pattern.Operand
import RegexAutomata.Pattern.Repetition

namespace RegexAutomata

namespace Shorthand

/-! ### What a replacement consists of -/

/-- Alternatives in parentheses. -/
def alternatives (options : List Text) : Text :=
  '(' :: List.intercalate ['|'] options ++ [')']

/-- A number of copies of a text. -/
def copies (n : Nat) (part : Text) : Text := (List.replicate n part).flatten

/-- One or more times. -/
def oneOrMore (part : Text) : Text := '(' :: part ++ part ++ ['*', ')']

/-- At most once. -/
def atMostOnce (part : Text) : Text := alternatives [part, [emptyMark]]

/-- The numbers from `upper` down to `lower`. -/
def countDown (lower upper : Nat) : List Nat :=
  (List.range (upper + 1 - lower)).map (upper - ·)

/-- As often as the bounds say. -/
def repeated (part : Text) (b : Bounds) : Text :=
  let lower := b.lower.getD 0
  match b.upper with
  | none => '(' :: copies lower part ++ part ++ ['*', ')']
  | some upper =>
    alternatives ((countDown lower upper).map fun n =>
      if n = 0 then [emptyMark] else copies n part)

/-- A character as a literal: bare if the alphabet has it, else escaped and grouped. -/
def literal (a : Alphabet) (c : Char) : Text :=
  if a.hasChar c then [c] else ['(', escapeMark, c, ')']

/-- The character with a given code point, if there is one. -/
def charOfCode? (n : Nat) : Option Char := if n.isValidChar then some (Char.ofNat n) else none

/-- The characters from `high` down to `low`. -/
def charsDown (low high : Char) : List Char :=
  (countDown low.toNat high.toNat).filterMap charOfCode?

/-- Any one character from `low` to `high`. -/
def oneBetween (a : Alphabet) (low high : Char) : Text :=
  alternatives ((charsDown low high).map (literal a))

/-- The single character that an operand stands for, if it can start a range. -/
def lowerEndpoint : Text → Option Char
  | [c] => if isReserved c then none else some c
  | [m, c] => if m = escapeMark then some c else none
  | [o, m, c, e] => if o = '(' ∧ m = escapeMark ∧ e = ')' then some c else none
  | _ => none

/-- The single character at the start of a text, if it can end a range, and the rest. -/
def upperEndpoint : Text → Option (Char × Text)
  | [] => none
  | c :: rest =>
    if c = escapeMark then
      match rest with
      | [] => none
      | d :: rest => some (d, rest)
    else if isReserved c then none
    else some (c, rest)

theorem length_lt_of_upperEndpoint {t rest : Text} {c : Char}
    (h : upperEndpoint t = some (c, rest)) : rest.length < t.length := by
  unfold upperEndpoint at h
  split at h
  · cases h
  · split at h
    · split at h
      · cases h
      · cases h
        simp only [List.length_cons]
        omega
    · split at h
      · cases h
      · cases h
        simp only [List.length_cons]
        omega

/-! ### One replacement -/

/-- The replacement for the abbreviation `c` with operand `part`, where `after` is the
text behind `c`, and how much of that text is left. -/
def spell (a : Alphabet) (part : Text) (c : Char) (after : Text) : Except Fault (Text × Text) :=
  if c = '+' then .ok (oneOrMore part, after)
  else if c = '?' then .ok (atMostOnce part, after)
  else if c = '-' then
    match lowerEndpoint part with
    | none => .error (.lowerBound part)
    | some low =>
      match upperEndpoint after with
      | none => .error .upperBound
      | some (high, rest) =>
        if high < low then .error (.descending low high)
        else .ok (oneBetween a low high, rest)
  else
    match Bounds.parse? (c :: after) with
    | none => .error .malformedRepetition
    | some (b, rest) =>
      match b.lower, b.upper with
      | some m, some n =>
        if n < m then .error (.minimumExceedsMaximum m n) else .ok (repeated part b, rest)
      | _, _ => .ok (repeated part b, rest)

/-- Replaces the abbreviation `c` between two texts, the first of which is given last
character first.  The result has the same form. -/
def replace (a : Alphabet) (done : Text) (c : Char) (after : Text) :
    Except PatternError (Text × Text) :=
  let whole := done.reverse ++ c :: after
  match operandOf done.reverse with
  | .error f => .error (f.toError whole c)
  | .ok part =>
    match spell a part c after with
    | .error f => .error (.atIndex f whole done.length)
    | .ok (replacement, rest) =>
      -- the operand is the end of `done`, and makes way for the replacement
      .ok (replacement.reverse ++ done.drop part.length, rest)

theorem length_spell_le {a : Alphabet} {part replacement after rest : Text} {c : Char}
    (h : spell a part c after = .ok (replacement, rest)) : rest.length ≤ after.length := by
  unfold spell at h
  split at h
  · cases h; exact Nat.le_refl _
  split at h
  · cases h; exact Nat.le_refl _
  split at h
  · split at h
    · cases h
    split at h
    · cases h
    · rename_i hu
      split at h
      · cases h
      · cases h
        exact Nat.le_of_lt (length_lt_of_upperEndpoint hu)
  · split at h
    · cases h
    · rename_i hp
      have hl := Bounds.length_lt_of_parse? hp
      simp only [List.length_cons] at hl
      split at h
      · split at h
        · cases h
        · cases h
          omega
      · cases h
        omega

theorem length_replace_le {a : Alphabet} {done done' after rest : Text} {c : Char}
    (h : replace a done c after = .ok (done', rest)) : rest.length ≤ after.length := by
  unfold replace at h
  split at h
  · cases h
  · split at h
    · cases h
    · rename_i hs
      cases h
      exact length_spell_le hs

/-! ### The whole pattern -/

/-- Reads the character `c` between two texts, of which the first has been read and is
given last character first, and an escaped character or an abbreviation along with it.
The result has the same form: what has been read, and what is left. -/
def next (a : Alphabet) (done : Text) (c : Char) (after : Text) :
    Except PatternError (Text × Text) :=
  if c = escapeMark then
    match after with
    | [] => .error (.atIndex .danglingEscape (done.reverse ++ [c]) done.length)
    | d :: rest => .ok (')' :: d :: c :: '(' :: done, rest)
  else if isTrigger c then replace a done c after
  else .ok (c :: done, after)

theorem length_next_le {a : Alphabet} {done done' after rest : Text} {c : Char}
    (h : next a done c after = .ok (done', rest)) : rest.length ≤ after.length := by
  unfold next at h
  split at h
  · split at h
    · cases h
    · cases h
      exact Nat.le_succ _
  · split at h
    · exact length_replace_le h
    · cases h
      exact Nat.le_refl _

/-- Reads the rest of a pattern; `done` is the text that has been read, with its
abbreviations replaced, last character first. -/
def expandFrom (a : Alphabet) (done : Text) : Text → Except PatternError Text
  | [] => .ok done.reverse
  | c :: after =>
    match h : next a done c after with
    | .error e => .error e
    | .ok (done', rest) =>
      have := length_next_le h
      expandFrom a done' rest
termination_by t => t.length

/-- A pattern without abbreviations, and with its escaped pairs in parentheses. -/
def expand (a : Alphabet) (t : Text) : Except PatternError Text := expandFrom a [] t

end Shorthand

end RegexAutomata
