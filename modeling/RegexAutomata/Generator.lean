/-
Generators: compilers that remember their results.

A `Generator` keeps all automata that it has made; a `Handle` stands for one of them.  It
remembers the canonical form of every pattern, the automaton of every canonical pattern
and the complement of every automaton it was asked for.  The latter two memories can be
switched off.  A pattern that cannot be compiled leaves nothing in them.
-/
import RegexAutomata.Automaton.Acceptor
import RegexAutomata.Compile
import RegexAutomata.Pattern.Canonical
import RegexAutomata.Table

namespace RegexAutomata

/-- Stands for one automaton of a generator. -/
abbrev Handle := Nat

/-- What a generator remembers, and all it has made. -/
structure Generator where
  alphabet : Alphabet
  /-- Are automata remembered by canonical pattern? -/
  caching : Bool
  /-- Do new automata remember their way? -/
  transitionCaching : Bool
  /-- Are complements remembered? -/
  complementCaching : Bool
  patterns : Table Text Text
  automata : Table Text Handle
  complements : Table Handle Handle
  builder : Builder
  acceptors : Array Acceptor

namespace Generator

/-- A generator that has made nothing. -/
def new (alphabet : Alphabet) (caching transitionCaching : Bool) : Generator :=
  ⟨alphabet, caching, transitionCaching, caching, [], [], [], .new, #[]⟩

/-- A generator for the standard alphabet, with all memories on. -/
def standard : Generator := new .standard true true

/-! ### Automata by handle -/

/-- The graph that all automata share. -/
def graph (g : Generator) : Graph := g.builder.graph

/-- The automaton that a handle stands for. -/
def acceptor (g : Generator) (h : Handle) : Acceptor :=
  g.acceptors.getD h (.ofAutomaton (.plain 0 .empty))

/-- Changes the automaton that a handle stands for. -/
def set (g : Generator) (h : Handle) (x : Acceptor) : Generator :=
  { g with acceptors := g.acceptors.setIfInBounds h x }

/-- Keeps a new automaton. -/
def keep (g : Generator) (x : Acceptor) : Generator × Handle :=
  ({ g with acceptors := g.acceptors.push x }, g.acceptors.size)

/-- Reports an event. -/
def report (g : Generator) (e : Event) : Generator := { g with builder := g.builder.report e }

/-- Forgets the events that have been reported. -/
def forgetEvents (g : Generator) : Generator :=
  { g with builder := { g.builder with events := [] } }

/-- Does the automaton accept a sequence of symbols? -/
def accepts (g : Generator) (h : Handle) (w : List Symbol) : Generator × Bool :=
  let (x, result) := (g.acceptor h).accepts g.graph w
  (g.set h x, result)

/-- Does the automaton accept each of some sequences, read one after the other? -/
def acceptsEach (g : Generator) (h : Handle) (ws : List (List Symbol)) : Generator × List Bool :=
  let (x, results) := (g.acceptor h).acceptsEach g.graph ws
  (g.set h x, results)

/-! ### Patterns -/

/-- The canonical form of a pattern, from memory if it is there. -/
def elongate (g : Generator) (p : Text) : Generator × Except PatternError Text :=
  match g.patterns.get? p with
  | some c => (g.report (.patternKnown p), .ok c)
  | none =>
    match canonical g.alphabet p with
    | .error e => (g, .error e)
    | .ok c => ({ g.report (.canonized p c) with patterns := g.patterns.put p c }, .ok c)

/-- The automaton of a canonical pattern, made anew. -/
def evaluate (g : Generator) (c : Text) : Generator × Except BuildError Handle :=
  match g.builder.compile g.alphabet c with
  | (builder, .error e) => ({ g with builder }, .error e)
  | (builder, .ok a) =>
    let (g, h) := { g with builder }.keep (.ofAutomaton a)
    (g, .ok h)

/-- The automaton of a pattern, from memory if it is there. -/
def generate (g : Generator) (p : Text) : Generator × Except BuildError Handle :=
  match g.elongate p with
  | (g, .error e) => (g, .error (.pattern e))
  | (g, .ok c) =>
    match if g.caching then g.automata.get? c else none with
    | some h => (g.report (.automatonKnown c), .ok h)
    | none =>
      -- nothing is remembered of a pattern that cannot be compiled
      match g.evaluate c with
      | (g, .error e) => (g, .error e)
      | (g, .ok h) =>
        let g := if g.transitionCaching then g else g.set h (g.acceptor h).disableCaching
        let vertices := ((g.acceptor h).automaton.vertices g.graph).size
        let g := g.report (.compiled c vertices)
        (if g.caching then { g with automata := g.automata.put c h } else g, .ok h)

/-! ### Operators -/

/-- Keeps what an operator has made. -/
def keepBuilt (g : Generator) (built : Builder × Automaton) : Generator × Handle :=
  { g with builder := built.1 }.keep (.ofAutomaton built.2)

/-- Keeps what an operator has made, if it could be applied. -/
def keepBuilt? (g : Generator) (built : Builder × Option Automaton) :
    Generator × Except BuildError Handle :=
  let g := { g with builder := built.1 }
  match built.2 with
  | none => (g, .error .notDeterministic)
  | some a =>
    let (g, h) := g.keep (.ofAutomaton a)
    (g, .ok h)

/-- An automaton of one edge. -/
def atom (g : Generator) (a : Atom) : Generator × Handle := g.keepBuilt (g.builder.atom a)

/-- An automaton that accepts the empty string alone. -/
def emptyString (g : Generator) : Generator × Handle := g.keepBuilt g.builder.emptyString

/-- What the first automaton accepts, followed by what the second one accepts. -/
def concatenate (g : Generator) (first second : Handle) : Generator × Except BuildError Handle :=
  g.keepBuilt? (g.builder.concatenate? (g.acceptor first).automaton (g.acceptor second).automaton)

/-- What either automaton accepts. -/
def union (g : Generator) (first second : Handle) : Generator × Except BuildError Handle :=
  g.keepBuilt? (g.builder.union? (g.acceptor first).automaton (g.acceptor second).automaton)

/-- What the automaton accepts, any number of times. -/
def star (g : Generator) (operand : Handle) : Generator × Except BuildError Handle :=
  g.keepBuilt? (g.builder.star? (g.acceptor operand).automaton)

/-- An automaton for the same language that is not inverted; the same one if it is
not. -/
def uninverted (g : Generator) (h : Handle) : Generator × Except BuildError Handle :=
  let a := (g.acceptor h).automaton
  if !a.inverted then (g, .ok h)
  else g.keepBuilt? (g.builder, a.uninverted? g.graph)

/-- The complement over the operating alphabet of any alphabet, made anew. -/
def complementOver (g : Generator) (alphabet : Alphabet) (h : Handle) : Generator × Handle :=
  g.keepBuilt (g.builder.complement alphabet.operating (g.acceptor h).automaton)

/-- The complement over the generator's own operating alphabet, from memory if it is
there. -/
def complement (g : Generator) (h : Handle) : Generator × Handle :=
  if g.complementCaching then
    match g.complements.get? h with
    | some r => (g.report (.complementKnown (g.graph.id (g.acceptor h).automaton.start)), r)
    | none =>
      let (g, r) := g.complementOver g.alphabet h
      ({ g with complements := g.complements.put h r }, r)
  else g.complementOver g.alphabet h

end Generator

end RegexAutomata
