/-
Symbols, alphabets and the characters that patterns reserve.

An automaton reads a sequence of symbols; a symbol is a short text, nearly always of
one character.  An alphabet lists the symbols that a pattern may use as bare literals.
Besides those, the engine can see every reserved character, since escaping turns each
of them into a literal: `Alphabet.operating` lists all of these symbols, without
repetition and by code point, the order in which the subset construction tries them.
-/

namespace RegexAutomata

/-- A text as the sequence of its characters: patterns are read in this form. -/
abbrev Text := List Char

/-- One letter of an automaton's input. -/
abbrev Symbol := String

/-- The symbol that consists of one character. -/
def Symbol.ofChar (c : Char) : Symbol := String.singleton c

/-- The symbols of a text are its characters, one by one. -/
def Text.symbols (t : Text) : List Symbol := t.map Symbol.ofChar

/-! ### Reserved characters -/

/-- Stands for the empty string in a pattern. -/
def emptyMark : Char := '#'

/-- Stands for any one symbol in a pattern. -/
def anyMark : Char := '.'

/-- Makes a literal of the character that follows it. -/
def escapeMark : Char := '/'

/-- The operators that an automaton is built with. -/
def operatorChars : List Char := ['&', '|', '*', '!', '(', ')']

/-- Abbreviations, which are spelled out before a pattern is compiled. -/
def shorthandChars : List Char := ['?', '+', '[', ']', '-', ',']

/-- The abbreviations that start a replacement; the others only occur inside one. -/
def triggerChars : List Char := ['?', '+', '[', '-']

/-- Marks that are no operators. -/
def specialChars : List Char := [emptyMark, anyMark, escapeMark]

/-- Is this character an operator? -/
def isOperator (c : Char) : Bool := operatorChars.contains c

/-- Is this character part of an abbreviation? -/
def isShorthand (c : Char) : Bool := shorthandChars.contains c

/-- Does this character start an abbreviation? -/
def isTrigger (c : Char) : Bool := triggerChars.contains c

/-- Is this character a mark? -/
def isSpecial (c : Char) : Bool := specialChars.contains c

/-- A reserved character is a literal only when it is escaped. -/
def isReserved (c : Char) : Bool := isOperator c || isShorthand c || isSpecial c

/-! ### Alphabets -/

/-- The symbols that may stand for themselves in a pattern. -/
structure Alphabet where
  symbols : List Symbol
deriving DecidableEq, Repr

namespace Alphabet

/-- Is this symbol in the alphabet? -/
def contains (a : Alphabet) (s : Symbol) : Bool := a.symbols.contains s

/-- Is the symbol made of this one character in the alphabet? -/
def hasChar (a : Alphabet) (c : Char) : Bool := a.contains (Symbol.ofChar c)

/-- The alphabet of the characters of a text. -/
def ofText (t : Text) : Alphabet := ⟨Text.symbols t⟩

/-- Letters and digits of ASCII, and the space. -/
def standard : Alphabet :=
  ofText "abcdefghijklmnopqrstuvwxyzABCDEFGHIJKLMNOPQRSTUVWXYZ0123456789 ".toList

/-- The symbols of the reserved characters. -/
def reservedSymbols : List Symbol :=
  Text.symbols (operatorChars ++ shorthandChars ++ specialChars)

/-- Every symbol that the engine can see: the alphabet and the reserved characters,
each once, in code-point order. -/
def operating (a : Alphabet) : List Symbol :=
  ((a.symbols ++ reservedSymbols).mergeSort fun s t => decide (s ≤ t)).eraseDups

end Alphabet

end RegexAutomata
