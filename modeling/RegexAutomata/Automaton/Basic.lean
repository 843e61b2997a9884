/-
Automata over the vertices of a graph.

An automaton has a start, accepting vertices and two marks.  It reads a sequence of
symbols by keeping track of all the vertices it can be at; it accepts if one of them
is accepting in the end.  In an inverted automaton accepting vertices and the others
change places.  If an automaton is known to be deterministic it is always at exactly one
vertex, and then inverting it is the same as exchanging its accepting vertices for the
other ones it can reach (`uninverted?`).
-/
import RegexAutomata.Automaton.Graph

namespace RegexAutomata

/-- A start, accepting vertices, and two marks. -/
structure Automaton where
  start : Nat
  accepting : VertexSet
  /-- Is it certain that the automaton is always at exactly one vertex? -/
  deterministic : Bool
  /-- Have accepting vertices and the others changed places? -/
  inverted : Bool
deriving DecidableEq

namespace Automaton

/-- An automaton of which nothing special is known. -/
def plain (start : Nat) (accepting : VertexSet) : Automaton := ⟨start, accepting, false, false⟩

/-- Where the automaton can be before it has read anything. -/
def initial (a : Automaton) (g : Graph) : VertexSet := g.closure (.singleton a.start)

/-- Does the automaton accept if its input ends while it can be at these vertices? -/
def isFinal (a : Automaton) (s : VertexSet) : Bool :=
  s.toList.any fun v => a.inverted != decide (v ∈ a.accepting)

/-- Does the automaton accept what is read from here on?  Once it can be nowhere it does
not look at the rest. -/
def acceptsFrom (a : Automaton) (g : Graph) (src : VertexSet) : List Symbol → Bool
  | [] => a.isFinal src
  | s :: w =>
    let dst := g.advance src s
    if dst.isEmpty then false else a.acceptsFrom g dst w

/-- Does the automaton accept a sequence of symbols? -/
def accepts (a : Automaton) (g : Graph) (w : List Symbol) : Bool :=
  a.acceptsFrom g (a.initial g) w

/-- The vertices of an automaton: all that can be reached from its start. -/
def vertices (a : Automaton) (g : Graph) : VertexSet := g.reachable a.start

/-- An automaton for the same language that is not inverted.  Only one that is known to
be deterministic can be changed that way. -/
def uninverted? (a : Automaton) (g : Graph) : Option Automaton :=
  if !a.inverted then some a
  else if !a.deterministic then none
  else some ⟨a.start, (a.vertices g).diff a.accepting, true, false⟩

end Automaton

end RegexAutomata
