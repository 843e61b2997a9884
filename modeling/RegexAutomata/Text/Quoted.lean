/-
Texts in quotes.

A text is put between single quotes, or between double quotes if it holds a single quote
and no double one.  The quote in use and the backslash are escaped by a backslash; tab,
line feed and carriage return have escapes of one letter, and every other character
that cannot be printed is given by its code point in hexadecimal.
-/
import RegexAutomata.Alphabet
import RegexAutomata.Text.Printable

namespace RegexAutomata

namespace Quoted

/-- A number in hexadecimal with at least so many digits. -/
def hex (digits n : Nat) : Text :=
  let ds := Nat.toDigits 16 n
  List.replicate (digits - ds.length) '0' ++ ds

/-- A character between the given quotes. -/
def char (quote c : Char) : Text :=
  if c = quote ∨ c = '\\' then ['\\', c]
  else if c = '\t' then ['\\', 't']
  else if c = '\n' then ['\\', 'n']
  else if c = '\r' then ['\\', 'r']
  else if isPrintable c then [c]
  else if c.toNat < 0x100 then '\\' :: 'x' :: hex 2 c.toNat
  else if c.toNat < 0x10000 then '\\' :: 'u' :: hex 4 c.toNat
  else '\\' :: 'U' :: hex 8 c.toNat

/-- The quotes for a text. -/
def quoteFor (t : Text) : Char :=
  if t.contains '\'' && !t.contains '"' then '"' else '\''

/-- A text in quotes. -/
def encode (t : Text) : Text :=
  let quote := quoteFor t
  quote :: t.flatMap (char quote) ++ [quote]

end Quoted

/-- A text in quotes. -/
def quoted (t : Text) : String := String.ofList (Quoted.encode t)

end RegexAutomata
