/-
Blank characters, and the trimming and splitting that go by them.

A character is blank if Unicode counts it as white space, or if it is one of the four
separators U+001C to U+001F.
-/
import RegexAutomata.Alphabet
import RegexAutomata.Text.CodeRange

namespace RegexAutomata

/-- The code points of blank characters. -/
def blankRanges : CodeRanges :=
  [(0x09, 0x0d), (0x1c, 0x20), (0x85, 0x85), (0xa0, 0xa0), (0x1680, 0x1680),
    (0x2000, 0x200a), (0x2028, 0x2029), (0x202f, 0x202f), (0x205f, 0x205f),
    (0x3000, 0x3000)]

/-- Is this character blank? -/
def isBlank (c : Char) : Bool := blankRanges.holds c

/-- A text without the blanks at its start. -/
def dropBlanks (t : Text) : Text := t.dropWhile isBlank

/-- A text without the blanks at either end. -/
def trimBlanks (t : Text) : Text := (dropBlanks (dropBlanks t).reverse).reverse

theorem length_dropBlanks_le (t : Text) : (dropBlanks t).length ≤ t.length :=
  (List.dropWhile_sublist _).length_le

/-- The maximal runs of characters that are not blank; `run` is the one being read, last
character first. -/
def runsFrom (run : Text) : Text → List Text
  | [] => if run.isEmpty then [] else [run.reverse]
  | c :: rest =>
    if isBlank c then
      if run.isEmpty then runsFrom [] rest else run.reverse :: runsFrom [] rest
    else runsFrom (c :: run) rest

/-- The words of a text: its maximal runs of characters that are not blank. -/
def blankSeparated (t : Text) : List Text := runsFrom [] t

end RegexAutomata
