/-
Building automata from smaller ones.

A `Builder` owns the graph and hands out the numbers of new vertices.  Each operator adds
edges to the graphs of its operands and, concatenation apart, a new start and a new
final vertex, numbered in this order.  An operand that is inverted is replaced by one
that is not; where that cannot be done the operator gives nothing, and the builder stays
as it is.
-/
import RegexAutomata.Automaton.Basic
import RegexAutomata.Event

namespace RegexAutomata

/-- The graph under construction. -/
structure Builder where
  graph : Graph
  /-- The number of the next vertex of a fragment. -/
  nextId : Nat
  /-- How many vertices stand for subsets; their numbers count down from minus one. -/
  subsets : Nat
  /-- What has been reported, last first. -/
  events : List Event
deriving DecidableEq

namespace Builder

/-- A builder that has built nothing. -/
def new : Builder := ⟨.empty, 0, 0, []⟩

/-- Reports an event. -/
def report (b : Builder) (e : Event) : Builder := { b with events := e :: b.events }

/-- One more vertex, with the next number. -/
def newVertex (b : Builder) : Builder × Nat :=
  let v := b.graph.size
  ({ b with graph := b.graph.addVertex b.nextId, nextId := b.nextId + 1 }, v)

/-- An automaton of one vertex, which accepts the empty string alone. -/
def emptyString (b : Builder) : Builder × Automaton :=
  let (b, v) := b.newVertex
  (b, .plain v (.singleton v))

/-- An automaton of one edge. -/
def atom (b : Builder) (a : Atom) : Builder × Automaton :=
  let (b, start) := b.newVertex
  let (b, final) := b.newVertex
  ({ b with graph := b.graph.link start a final }, .plain start (.singleton final))

/-- What the first automaton accepts, followed by what the second one accepts. -/
def concatenate? (b : Builder) (first second : Automaton) : Builder × Option Automaton :=
  match first.uninverted? b.graph, second.uninverted? b.graph with
  | some f, some s =>
    ({ b with graph := b.graph.linkAll f.accepting.toList s.start },
      some (.plain f.start s.accepting))
  | _, _ => (b, none)

/-- What either automaton accepts. -/
def union? (b : Builder) (first second : Automaton) : Builder × Option Automaton :=
  match first.uninverted? b.graph, second.uninverted? b.graph with
  | some f, some s =>
    let (b, start) := b.newVertex
    let (b, final) := b.newVertex
    let graph := (b.graph.link start .empty f.start).link start .empty s.start
    let graph := (graph.linkAll f.accepting.toList final).linkAll s.accepting.toList final
    ({ b with graph }, some (.plain start (.singleton final)))
  | _, _ => (b, none)

/-- What the automaton accepts, any number of times. -/
def star? (b : Builder) (operand : Automaton) : Builder × Option Automaton :=
  match operand.uninverted? b.graph with
  | some f =>
    let (b, start) := b.newVertex
    let (b, final) := b.newVertex
    -- none at all
    let graph := (b.graph.link start .empty f.start).link start .empty final
    -- once more, or no more
    let graph := (graph.linkAll f.accepting.toList f.start).linkAll f.accepting.toList final
    ({ b with graph }, some (.plain start (.singleton final)))
  | none => (b, none)

end Builder

end RegexAutomata
