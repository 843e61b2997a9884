/-
The words in which the events of a compilation are logged.
-/
import RegexAutomata.Event
import RegexAutomata.Text.Quoted

namespace RegexAutomata

/-- The words for an event. -/
def Event.text : Event → String
  | patternKnown p => "pattern cache hit for " ++ quoted p
  | canonized p c => "elongated " ++ quoted p ++ " to " ++ quoted c
  | automatonKnown c => "automaton cache hit for " ++ quoted c
  | compiled c n => "compiled " ++ quoted c ++ s!" into {n} states"
  | complementKnown start => s!"complement cache hit for State({start})"
  | determinized n k => s!"subset construction produced {n} states over {k} symbols"

end RegexAutomata
