/-
The steps of a session and the answers to them.

A session works on automata by name.  A step makes an automaton and names it, changes
one, asks about one, reads symbols with a visit, or turns to the generator itself.
-/
import RegexAutomata.Automaton.Listing
import RegexAutomata.Generator
import RegexAutomata.Session.Blueprint

namespace RegexAutomata

/-- Ways to make an automaton; other automata are given by name. -/
inductive Making where
  | generate (pattern : Text)
  | evaluate (canonical : Text)
  | atom (a : Atom)
  | emptyString
  | concatenate (first second : String)
  | union (first second : String)
  | star (of : String)
  | complement (of : String)
  /-- The complement over an alphabet that need not be the generator's. -/
  | complementOver (of : String) (alphabet : Alphabet)
  | uninverted (of : String)
  | build (plan : Blueprint)

/-- Ways to change an automaton. -/
inductive Change where
  /-- One more edge between vertices given by number. -/
  | link (source : Int) (label : Atom) (dest : Int)
  | enableCaching
  | disableCaching
  | clearMemo
  | markDeterministic (value : Bool)
  | invert

/-- Questions about an automaton; vertices are given by number. -/
inductive Question where
  | accepts (inputs : List (List Symbol))
  | listing
  | summary
  | memo
  | initial
  | closure (states : List Int)
  | isFinal (states : List Int)
  | isFailure (states : List Int)
  | advance (states : List Int) (s : Symbol)
  | next (state : Int) (s : Symbol)
  | neighbors (state : Int)
  | text (state : Int)

/-- The memories of a generator. -/
inductive Memory where
  | patterns
  | automata
  | complements

/-- One step of a session. -/
inductive Step where
  | make (name : String) (how : Making)
  | change (name : String) (how : Change)
  | drop (name : String)
  | ask (name : String) (what : Question)
  | same (first second : String)
  /-- Starts a visit of an automaton and names it. -/
  | visit (name : String) (of : String)
  | feed (visit : String) (symbols : List Symbol)
  | elongate (pattern : Text)
  /-- Switches memories of the generator on or off, where a value is given. -/
  | switch (caching transitionCaching : Option Bool)
  | switchComplements (value : Bool)
  | clear (which : Memory)
  | caches

/-- The notes of an automaton on one set of vertices, by number: each symbol and where it
leads to. -/
abbrev Note := List Int × List (Symbol × List Int)

/-- What a generator remembers. -/
structure CacheReport where
  patterns : List (Text × Text)
  automata : List Text
  /-- How many complements are remembered of automata that can still be reached. -/
  complements : Nat
  caching : Bool
  transitionCaching : Bool
  complementCaching : Bool

/-- Answers to steps. -/
inductive Reply where
  | done
  | bool (b : Bool)
  | bools (bs : List Bool)
  | text (t : Text)
  | ids (ids : List Int)
  | summary (s : Summary)
  | listing (l : Listing)
  | memo (notes : List Note)
  /-- Is the automaton deterministic, and does it remember its way? -/
  | marks (deterministic caching : Bool)
  | visit (state : List Int) (failed success : Bool)
  | caches (r : CacheReport)

/-- Why a step has no answer. -/
inductive StepError where
  | build (e : BuildError)
  | noSuchName (name : String)

end RegexAutomata
