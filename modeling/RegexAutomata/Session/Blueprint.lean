/-
Automata described vertex by vertex.
-/
import RegexAutomata.Automaton.Acceptor
import RegexAutomata.Automaton.Fragment

namespace RegexAutomata

/-- A vertex and the numbers of the vertices that its edges lead to. -/
structure VertexBlueprint where
  id : Int
  on : List (Symbol × Int)
  eps : List Int
  any : List Int
deriving DecidableEq, Repr

/-- An automaton by the numbers of its vertices.  Vertices that are only mentioned have no
edges. -/
structure Blueprint where
  vertices : List VertexBlueprint
  start : Int
  accepting : List Int
  deterministic : Bool
  inverted : Bool
  caching : Bool
deriving DecidableEq, Repr

namespace VertexBlueprint

/-- The labels of the edges and the numbers that they lead to. -/
def edges (v : VertexBlueprint) : List (Atom × Int) :=
  v.on.map (fun e => (.one e.1, e.2)) ++ v.eps.map (fun k => (.empty, k)) ++
    v.any.map fun k => (.any, k)

end VertexBlueprint

namespace Blueprint

/-- All the numbers mentioned, each once. -/
def ids (p : Blueprint) : List Int :=
  (p.start :: p.accepting ++ p.vertices.flatMap fun v => v.id :: v.edges.map (·.2)).eraseDups

/-- Adds the vertices and edges of a blueprint to a graph. -/
def build (p : Blueprint) (b : Builder) : Builder × Acceptor :=
  let base := b.graph.size
  let vertex := fun k => base + p.ids.idxOf k
  let graph := p.ids.foldl (fun g k => g.addVertex k) b.graph
  let graph := p.vertices.foldl (fun g v =>
    v.edges.foldl (fun g e => g.link (vertex v.id) e.1 (vertex e.2)) g) graph
  let automaton : Automaton :=
    ⟨vertex p.start, .ofList (p.accepting.map vertex), p.deterministic, p.inverted⟩
  ({ b with graph }, { Acceptor.ofAutomaton automaton with
    caching := p.caching && !p.deterministic })

end Blueprint

end RegexAutomata
