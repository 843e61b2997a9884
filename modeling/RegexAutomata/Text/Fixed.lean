/-
Binary floating-point numbers with a fixed number of decimal places.

A finite number is a natural number times a power of two, with a sign.  It is rounded to
the nearest decimal with so many places from this exact value, and a tie goes to the
even last digit.
-/

namespace RegexAutomata

/-- The quotient of two numbers rounded to the nearest integer, ties to the even one. -/
def roundDiv (num den : Nat) : Nat :=
  let q := num / den
  let r := num % den
  if 2 * r < den then q
  else if den < 2 * r then q + 1
  else if q % 2 = 0 then q else q + 1

/-- A binary number: a sign, and a natural number times a power of two. -/
structure Binary where
  negative : Bool
  mantissa : Nat
  exponent : Int
deriving DecidableEq, Repr

/-- What a bit pattern of a double stands for. -/
inductive Double where
  | finite (x : Binary)
  | infinite (negative : Bool)
  | undefined
deriving DecidableEq, Repr

namespace Double

/-- Reads the sign, the eleven bits of the exponent and the rest. -/
def ofBits (bits : Nat) : Double :=
  let negative := (bits >>> 63) % 2 = 1
  let exponent : Nat := (bits >>> 52) % (1 <<< 11)
  let fraction := bits % (1 <<< 52)
  if exponent = (1 <<< 11) - 1 then if fraction = 0 then infinite negative else undefined
  else if exponent = 0 then finite ⟨negative, fraction, -1074⟩
  else finite ⟨negative, (1 <<< 52) + fraction, (exponent : Int) - 1075⟩

end Double

namespace Binary

/-- The value times a power of ten, rounded to an integer, without the sign. -/
def scaled (x : Binary) (places : Nat) : Nat :=
  let n := x.mantissa * Nat.pow 10 places
  match x.exponent with
  | .ofNat k => n <<< k
  | .negSucc k => roundDiv n (1 <<< (k + 1))

/-- The value with so many decimal places. -/
def fixed (x : Binary) (places : Nat) : String :=
  let digits := Nat.toDigits 10 (x.scaled places)
  -- at least one digit stands before the point
  let digits := List.replicate (places + 1 - digits.length) '0' ++ digits
  let whole := digits.take (digits.length - places)
  let fraction := digits.drop (digits.length - places)
  let sign := if x.negative then ['-'] else []
  let point := if places = 0 then [] else ['.']
  String.ofList (sign ++ whole ++ point ++ fraction)

end Binary

/-- A floating-point number with so many decimal places. -/
def fixedText (x : Float) (places : Nat) : String :=
  match Double.ofBits x.toBits.toNat with
  | .finite y => y.fixed places
  | .infinite true => "-inf"
  | .infinite false => "inf"
  | .undefined => "nan"

end RegexAutomata
