/-
Running sessions.

The names of a session stand for automata and visits.  A step that fails changes no
name, and the session goes on after it.  The memory of complements counts only entries
whose automaton can still be reached: by a name, from a visit, from the memory of
automata, or as the complement in an entry that counts.
-/
import RegexAutomata.Session.Step

namespace RegexAutomata

/-- A generator and the names in use. -/
structure Session where
  generator : Generator
  names : Table String Handle
  visits : Table String (Handle × Visit)

namespace Session

/-- A session without names. -/
def new (g : Generator) : Session := ⟨g, [], []⟩

/-- The graph of all automata. -/
def graph (s : Session) : Graph := s.generator.graph

/-- The automaton that a name stands for. -/
def handle (s : Session) (name : String) : Except StepError Handle :=
  match s.names.get? name with
  | some h => .ok h
  | none => .error (.noSuchName name)

/-! ### Which entries count -/

/-- Adds to the automata that can be reached the complements of those that can be
reached, so many times over. -/
def keepAlive (complements : Table Handle Handle) : Nat → List Handle → List Handle
  | 0, alive => alive
  | n + 1, alive =>
    -- a complement lives as long as the automaton it belongs to
    let more := complements.filter fun e => alive.contains e.1 && !alive.contains e.2
    keepAlive complements n (alive ++ more.map (·.2))

/-- The automata that a session can still reach. -/
def alive (s : Session) : List Handle :=
  let complements := s.generator.complements
  keepAlive complements complements.length
    (s.names.map (·.2) ++ s.visits.map (·.2.1) ++ s.generator.automata.map (·.2))

/-- How many complements are remembered of automata that can still be reached. -/
def liveComplements (s : Session) : Nat :=
  let alive := s.alive
  (s.generator.complements.filter fun e => alive.contains e.1).length

/-- What the generator remembers. -/
def cacheReport (s : Session) : CacheReport :=
  let g := s.generator
  ⟨g.patterns.mergeSort fun e f => !f.1.lex e.1,
    (g.automata.map (·.1)).mergeSort fun c d => !d.lex c,
    s.liveComplements, g.caching, g.transitionCaching, g.complementCaching⟩

/-! ### Steps -/

/-- Makes an automaton. -/
def make (s : Session) (how : Making) : Generator × Except StepError Handle :=
  let g := s.generator
  let built := fun (r : Generator × Except BuildError Handle) => (r.1, r.2.mapError .build)
  let always := fun (r : Generator × Handle) => (r.1, .ok r.2)
  let one := fun of (f : Handle → Generator × Except StepError Handle) =>
    match s.handle of with
    | .error e => (g, .error e)
    | .ok h => f h
  match how with
  | .generate p => built (g.generate p)
  | .evaluate c => built (g.evaluate c)
  | .atom a => always (g.atom a)
  | .emptyString => always g.emptyString
  | .concatenate first second => one first fun f => one second fun h => built (g.concatenate f h)
  | .union first second => one first fun f => one second fun h => built (g.union f h)
  | .star of => one of fun h => built (g.star h)
  | .complement of => one of fun h => always (g.complement h)
  | .complementOver of alphabet => one of fun h => always (g.complementOver alphabet h)
  | .uninverted of => one of fun h => built (g.uninverted h)
  | .build plan =>
    let (builder, x) := plan.build g.builder
    always ({ g with builder }.keep x)

/-- The vertices of an automaton that have one of the given numbers. -/
def pick (g : Graph) (a : Automaton) (ids : List Int) : VertexSet :=
  .ofList ((a.vertices g).toList.filter fun v => ids.contains (g.id v))

/-- The node of an automaton with a given number. -/
def pickNode (g : Graph) (a : Automaton) (id : Int) : Node :=
  ((pick g a [id]).toList.head?.map g.node).getD (.bare id)

/-- Changes an automaton. -/
def change (g : Generator) (h : Handle) : Change → Generator × Reply
  | .link source label dest =>
    let a := (g.acceptor h).automaton
    match (pick g.graph a [source]).toList, (pick g.graph a [dest]).toList with
    | u :: _, v :: _ =>
      ({ g with builder := { g.builder with graph := g.graph.link u label v } }, .done)
    | _, _ => (g, .done)
  | .enableCaching =>
    let x := (g.acceptor h).enableCaching
    (g.set h x, .bool x.caching)
  | .disableCaching =>
    let x := (g.acceptor h).disableCaching
    (g.set h x, .bool x.caching)
  | .clearMemo => (g.set h (g.acceptor h).clearMemo, .done)
  | .markDeterministic value =>
    let x := (g.acceptor h).markDeterministic value
    (g.set h x, .marks x.automaton.deterministic x.caching)
  | .invert =>
    let x := (g.acceptor h).invert
    (g.set h x, .bool x.automaton.inverted)

/-- The notes of an automaton by number: sets of vertices in order, and for each of them
the symbols in order. -/
def notes (g : Graph) (x : Acceptor) : List Note :=
  let rows := x.memo.toList.map fun r =>
    (g.ids r.1, r.2.map fun e => (e.1, g.ids e.2.toList))
  rows.mergeSort fun r t => !t.1.lex r.1

/-- Answers a question about an automaton. -/
def ask (g : Generator) (h : Handle) (what : Question) : Generator × Reply :=
  let x := g.acceptor h
  let a := x.automaton
  let graph := g.graph
  match what with
  | .accepts inputs =>
    let (g, bs) := g.acceptsEach h inputs
    (g, .bools bs)
  | .listing => (g, .listing (x.listing graph))
  | .summary => (g, .summary (x.summary graph))
  | .memo => (g, .memo (notes graph x))
  | .initial => (g, .ids (graph.ids (a.initial graph).toList))
  | .closure states => (g, .ids (graph.ids (graph.closure (pick graph a states)).toList))
  | .isFinal states => (g, .bool (a.isFinal (pick graph a states)))
  | .isFailure states => (g, .bool (pick graph a states).isEmpty)
  | .advance states s =>
    let (x, dst) := x.advance graph (pick graph a states) s
    (g.set h x, .ids (graph.ids dst.toList))
  | .next state s =>
    (g, .ids (graph.ids (VertexSet.ofList ((pickNode graph a state).step s)).toList))
  | .neighbors state => (g, .ids (graph.ids (pickNode graph a state).targets))
  | .text state => (g, .text s!"State({(pickNode graph a state).id})".toList)

/-- What is to be said about a visit. -/
def visitReply (g : Generator) (h : Handle) (v : Visit) : Reply :=
  .visit (g.graph.ids v.state.toList) v.failed (v.success (g.acceptor h).automaton)

/-- Runs one step. -/
def step (s : Session) : Step → Session × Except StepError Reply
  | .make name how =>
    match s.make how with
    | (g, .error e) => ({ s with generator := g }, .error e)
    | (g, .ok h) =>
      ({ s with generator := g, names := s.names.put name h },
        .ok (.summary ((g.acceptor h).summary g.graph)))
  | .change name how =>
    match s.handle name with
    | .error e => (s, .error e)
    | .ok h =>
      let (g, r) := change s.generator h how
      ({ s with generator := g }, .ok r)
  | .drop name =>
    match s.handle name with
    | .error e => (s, .error e)
    | .ok _ => ({ s with names := s.names.erase name }, .ok .done)
  | .ask name what =>
    match s.handle name with
    | .error e => (s, .error e)
    | .ok h =>
      let (g, r) := ask s.generator h what
      ({ s with generator := g }, .ok r)
  | .same first second =>
    match s.handle first with
    | .error e => (s, .error e)
    | .ok f =>
      match s.handle second with
      | .error e => (s, .error e)
      | .ok h => (s, .ok (.bool (f == h)))
  | .visit name of =>
    match s.handle of with
    | .error e => (s, .error e)
    | .ok h =>
      let v := Visit.start (s.generator.acceptor h).automaton s.graph
      ({ s with visits := s.visits.put name (h, v) }, .ok (visitReply s.generator h v))
  | .feed visit symbols =>
    match s.visits.get? visit with
    | none => (s, .error (.noSuchName visit))
    | some (h, v) =>
      let (x, v) := v.feed s.graph (s.generator.acceptor h) symbols
      let g := s.generator.set h x
      ({ s with generator := g, visits := s.visits.put visit (h, v) }, .ok (visitReply g h v))
  | .elongate pattern =>
    match s.generator.elongate pattern with
    | (g, .ok c) => ({ s with generator := g }, .ok (.text c))
    | (g, .error e) => ({ s with generator := g }, .error (.build (.pattern e)))
  | .switch caching transitionCaching =>
    let g := s.generator
    ({ s with generator := { g with
        caching := caching.getD g.caching
        transitionCaching := transitionCaching.getD g.transitionCaching } }, .ok .done)
  | .switchComplements value =>
    ({ s with generator := { s.generator with complementCaching := value } }, .ok .done)
  | .clear which =>
    let g := s.generator
    let g := match which with
      | .patterns => { g with patterns := [] }
      | .automata => { g with automata := [] }
      | .complements => { g with complements := [] }
    ({ s with generator := g }, .ok .done)
  | .caches => (s, .ok (.caches s.cacheReport))

/-- Runs steps in turn.  Each answer comes with the events of its step, in order. -/
def run (s : Session) : List Step → List (Except StepError Reply × List Event)
  | [] => []
  | st :: rest =>
    let (s, r) := s.step st
    let events := s.generator.builder.events.reverse
    let s := { s with generator := s.generator.forgetEvents }
    (r, events) :: run s rest

end Session

end RegexAutomata
