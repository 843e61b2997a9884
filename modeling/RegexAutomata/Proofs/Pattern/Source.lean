/-
The grammar of patterns as they are written.

    alt     := seq ('|' seq)*              primary := a character of the alphabet
    seq     := factor ('&'? factor)*                | '/' any character
    factor  := primary suffix*                      | '#' | '.'
             | '!'+ primary suffix* '*'*            | character '-' character
    suffix  := '*' | '+' | '?' | '[m,n]'            | '(' alt ')'

Between a negation and its operand's stars the suffixes are no stars.  `Source` holds the syntax
trees, for a given alphabet; a tree is written down (`Source.text`) and denotes a language
(`Source.denote`).  Suffixes apply from the left to the right, and negations to an operand with
its suffixes, but without the stars behind them.  Pairs of negations are left out, and a complement
is taken over the symbols that the engine can see.
-/
import Mathlib.Algebra.Ring.Parity
import RegexAutomata.Proofs.Pattern.Bounds
import RegexAutomata.Proofs.Pattern.Grammar

open scoped Computability

namespace RegexAutomata

/-! ### Suffixes -/

/-- What may stand right behind an operand. -/
inductive Suffix where
  | star
  | oneOrMore
  | atMostOnce
  | repeated (b : WrittenBounds)

namespace Suffix

/-- How a suffix is written. -/
def text : Suffix → Text
  | star => ['*']
  | oneOrMore => ['+']
  | atMostOnce => ['?']
  | repeated b => b.text

/-- What a suffix makes of a language. -/
def denote : Suffix → Language Symbol → Language Symbol
  | star, L => L∗
  | oneOrMore, L => L * L∗
  | atMostOnce, L => L + 1
  | repeated b, L =>
    {w | ∃ n, (∀ m ∈ b.bounds.lower, m ≤ n) ∧ (∀ m ∈ b.bounds.upper, n ≤ m) ∧ w ∈ L ^ n}

/-- What suffixes make of a language, one after the other. -/
def denoteAll (ss : List Suffix) (L : Language Symbol) : Language Symbol :=
  ss.foldl (fun L s => s.denote L) L

end Suffix

/-! ### Patterns -/

/-- One end of a range of characters. -/
inductive Endpoint (a : Alphabet) where
  | literal (c : Char) (h : a.hasChar c = true)
  | escaped (c : Char)

namespace Endpoint

variable {a : Alphabet}

def char : Endpoint a → Char
  | literal c _ => c
  | escaped c => c

def text : Endpoint a → Text
  | literal c _ => [c]
  | escaped c => [escapeMark, c]

end Endpoint

/-- The syntax trees of patterns. -/
inductive Source (a : Alphabet) : Level → Type
  | literal (c : Char) (h : a.hasChar c = true) : Source a .base
  | escaped (c : Char) : Source a .base
  | empty : Source a .base
  | any : Source a .base
  | range (low high : Endpoint a) (h : low.char ≤ high.char) : Source a .base
  | group (e : Source a .expr) : Source a .base
  | suffixed (p : Source a .base) (ss : List Suffix) : Source a .factor
  | negated (k : Nat) (hk : 1 ≤ k) (p : Source a .base) (ss : List Suffix)
    (hss : ∀ s ∈ ss, s ≠ .star) (stars : Nat) : Source a .factor
  | ofFactor (f : Source a .factor) : Source a .term
  | concat (f : Source a .factor) (marked : Bool) (t : Source a .term) : Source a .term
  | ofTerm (t : Source a .term) : Source a .expr
  | union (t : Source a .term) (e : Source a .expr) : Source a .expr

namespace Source

variable {a : Alphabet}

/-- How a pattern is written. -/
def text {l : Level} : Source a l → Text
  | literal c _ => [c]
  | escaped c => [escapeMark, c]
  | empty => [emptyMark]
  | any => [anyMark]
  | range low high _ => low.text ++ '-' :: high.text
  | group e => '(' :: e.text ++ [')']
  | suffixed p ss => p.text ++ ss.flatMap Suffix.text
  | negated k _ p ss _ stars =>
    List.replicate k '!' ++ p.text ++ ss.flatMap Suffix.text ++ List.replicate stars '*'
  | ofFactor f => f.text
  | concat f marked t => f.text ++ (if marked then ['&'] else []) ++ t.text
  | ofTerm t => t.text
  | union t e => t.text ++ '|' :: e.text

/-- The language of a pattern. -/
def denote {l : Level} : Source a l → Language Symbol
  | literal c _ => {[Symbol.ofChar c]}
  | escaped c => {[Symbol.ofChar c]}
  | empty => 1
  | any => {w | ∃ s, w = [s]}
  | range low high _ => {w | ∃ c, low.char ≤ c ∧ c ≤ high.char ∧ w = [Symbol.ofChar c]}
  | group e => e.denote
  | suffixed p ss => Suffix.denoteAll ss p.denote
  | negated k _ p ss _ stars =>
    let L := Suffix.denoteAll ss p.denote
    Suffix.denoteAll (List.replicate stars .star) (if Odd k then complementIn a.operating L else L)
  | ofFactor f => f.denote
  | concat f _ t => f.denote * t.denote
  | ofTerm t => t.denote
  | union t e => t.denote + e.denote

theorem text_ne_nil {l : Level} (s : Source a l) : s.text ≠ [] := by
  induction s with
  | literal | escaped | empty | any | group => exact List.cons_ne_nil _ _
  | range low high => cases low <;> exact List.cons_ne_nil _ _
  | suffixed p ss ih => exact List.append_ne_nil_of_left_ne_nil ih _
  | negated k hk p ss hss stars ih =>
    refine List.append_ne_nil_of_left_ne_nil (List.append_ne_nil_of_left_ne_nil ?_ _) _
    exact List.append_ne_nil_of_right_ne_nil _ ih
  | ofFactor f ih => exact ih
  | concat f marked t ihf iht => exact List.append_ne_nil_of_right_ne_nil _ iht
  | ofTerm t ih => exact ih
  | union t e iht ihe => exact List.append_ne_nil_of_left_ne_nil iht _

end Source

end RegexAutomata
