/-
The pieces of a pattern: single characters and escaped pairs.

`split` reads a text from the left; an escape marker takes the character after it into
one piece, and a marker at the very end stands alone.  Every text is the `join` of its
pieces (`join_split`).
-/
import RegexAutomata.Alphabet

namespace RegexAutomata

/-- A character that stands for itself, or one behind an escape marker. -/
inductive Piece where
  | bare (c : Char)
  | escaped (c : Char)
deriving DecidableEq, Repr

namespace Piece

/-- The characters of a piece. -/
def text : Piece → Text
  | bare c => [c]
  | escaped c => [escapeMark, c]

/-- The number of characters of a piece. -/
def size : Piece → Nat
  | bare _ => 1
  | escaped _ => 2

/-- The pieces of a text, escaped pairs kept together. -/
def split : Text → List Piece
  | [] => []
  | [c] => [bare c]
  | c :: d :: rest =>
    if c = escapeMark then escaped d :: split rest else bare c :: split (d :: rest)

/-- The text that pieces make up. -/
def join (ps : List Piece) : Text := ps.flatMap text

/-- The number of characters that pieces make up. -/
def width (ps : List Piece) : Nat := ps.foldr (fun p n => p.size + n) 0

@[simp] theorem join_nil : join [] = [] := rfl

@[simp] theorem join_cons (p : Piece) (ps : List Piece) : join (p :: ps) = p.text ++ join ps := by
  simp [join]

@[simp] theorem join_append (ps qs : List Piece) : join (ps ++ qs) = join ps ++ join qs := by
  simp [join]

theorem length_text (p : Piece) : p.text.length = p.size := by
  cases p <;> rfl

theorem length_join (ps : List Piece) : (join ps).length = width ps := by
  induction ps with
  | nil => rfl
  | cons p ps ih => simp [width, length_text, ih] at ih ⊢

/-- Splitting loses nothing. -/
theorem join_split (t : Text) : join (split t) = t := by
  fun_induction split t with
  | case1 => rfl
  | case2 c => rfl
  | case3 d rest ih => simp [text, ih]
  | case4 c d rest hc ih => simp [text, ih]

end Piece

end RegexAutomata
