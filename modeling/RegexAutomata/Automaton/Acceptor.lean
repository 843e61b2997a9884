/-
Automata that remember their way.

While it reads, an `Acceptor` notes which set of vertices it reached from which set by
which symbol, and looks there before it follows edges again.  Remembering can be
switched off and on, and notes can be forgotten; an automaton that is known to be
deterministic starts with it switched off.

A `Visit` is a reading that can be continued symbol by symbol.
-/
import RegexAutomata.Automaton.Basic
import RegexAutomata.Automaton.Memo

namespace RegexAutomata

/-- An automaton and its notes. -/
structure Acceptor where
  automaton : Automaton
  /-- Are the notes used and kept? -/
  caching : Bool
  memo : Memo

namespace Acceptor

/-- An automaton with no notes yet. -/
def ofAutomaton (a : Automaton) : Acceptor := ⟨a, !a.deterministic, .empty⟩

/-- Where a symbol leads to from a set of vertices. -/
def advance (x : Acceptor) (g : Graph) (src : VertexSet) (s : Symbol) : Acceptor × VertexSet :=
  if x.caching then
    match x.memo.get? src s with
    | some dst => (x, dst)
    | none =>
      let dst := g.advance src s
      ({ x with memo := x.memo.put src s dst }, dst)
  else (x, g.advance src s)

/-- Does the automaton accept what is read from here on? -/
def acceptsFrom (g : Graph) (x : Acceptor) (src : VertexSet) : List Symbol → Acceptor × Bool
  | [] => (x, x.automaton.isFinal src)
  | s :: w =>
    let (x, dst) := x.advance g src s
    if dst.isEmpty then (x, false) else acceptsFrom g x dst w

/-- Does the automaton accept a sequence of symbols? -/
def accepts (x : Acceptor) (g : Graph) (w : List Symbol) : Acceptor × Bool :=
  acceptsFrom g x (x.automaton.initial g) w

/-- Does the automaton accept each of some sequences, read one after the other? -/
def acceptsEach (g : Graph) (x : Acceptor) : List (List Symbol) → Acceptor × List Bool
  | [] => (x, [])
  | w :: ws =>
    let (x, b) := x.accepts g w
    let (x, bs) := acceptsEach g x ws
    (x, b :: bs)

/-- Switches remembering on. -/
def enableCaching (x : Acceptor) : Acceptor := { x with caching := true }

/-- Switches remembering off; what was noted is kept. -/
def disableCaching (x : Acceptor) : Acceptor := { x with caching := false }

/-- Forgets all notes. -/
def clearMemo (x : Acceptor) : Acceptor := { x with memo := .empty }

/-- States whether the automaton is known to be deterministic; remembering is switched
off if it is, else on. -/
def markDeterministic (x : Acceptor) (value : Bool) : Acceptor :=
  { x with automaton := { x.automaton with deterministic := value }, caching := !value }

/-- Accepting vertices and the others change places. -/
def invert (x : Acceptor) : Acceptor :=
  { x with automaton := { x.automaton with inverted := !x.automaton.inverted } }

end Acceptor

/-- A reading in progress: where the automaton can be. -/
structure Visit where
  state : VertexSet
deriving DecidableEq

namespace Visit

/-- A reading before its first symbol. -/
def start (a : Automaton) (g : Graph) : Visit := ⟨a.initial g⟩

/-- Is there nowhere left to go?  No continuation is accepted then. -/
def failed (v : Visit) : Bool := v.state.isEmpty

/-- Is what has been read accepted? -/
def success (v : Visit) (a : Automaton) : Bool := !v.failed && a.isFinal v.state

/-- Reads one more symbol; once the visit has failed, symbols are ignored. -/
def read (v : Visit) (x : Acceptor) (g : Graph) (s : Symbol) : Acceptor × Visit :=
  if v.failed then (x, v)
  else
    let (x, dst) := x.advance g v.state s
    (x, ⟨dst⟩)

/-- Reads symbols in turn. -/
def feed (g : Graph) (x : Acceptor) (v : Visit) : List Symbol → Acceptor × Visit
  | [] => (x, v)
  | s :: w =>
    let (x, v) := v.read x g s
    feed g x v w

end Visit

end RegexAutomata
