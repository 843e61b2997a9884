/-
Spans of time as they are shown.
-/
import RegexAutomata.Text.Fixed

namespace RegexAutomata

/-- A span of time in seconds: below a millisecond in microseconds without places, below a
second in milliseconds with two places, else in seconds with three. -/
def durationText (seconds : Float) : String :=
  if seconds < 1e-3 then fixedText (seconds * 1e6) 0 ++ " us"
  else if seconds < 1 then fixedText (seconds * 1e3) 2 ++ " ms"
  else fixedText seconds 3 ++ " s"

end RegexAutomata
