/-
Descriptions of automata.

A `Summary` gives the size and the marks of an automaton; a `Listing` names every vertex
that can be reached and the edges that leave it.  Vertices are shown by number, in
increasing order; symbols that lead from a vertex to the same vertices are listed
together, in code-point order.
-/
import RegexAutomata.Automaton.Acceptor

namespace RegexAutomata

/-- Numbers in increasing order. -/
def ascending (ns : List Int) : List Int := ns.mergeSort fun m n => decide (m ≤ n)

/-- Symbols in code-point order. -/
def alphabetical (ss : List Symbol) : List Symbol := ss.mergeSort fun s t => decide (s ≤ t)

namespace Graph

/-- The numbers of vertices, in increasing order. -/
def ids (g : Graph) (vs : List Nat) : List Int := ascending (vs.map g.id)

/-- The text that stands for a vertex. -/
def vertexText (g : Graph) (v : Nat) : String := s!"State({g.id v})"

end Graph

/-- Symbols and the numbers of the vertices that they all lead to. -/
structure SymbolGroup where
  symbols : List Symbol
  dests : List Int
deriving DecidableEq, Repr

namespace SymbolGroup

/-- Groups with one more symbol, which joins the group of its destinations. -/
def add (s : Symbol) (dests : List Int) : List SymbolGroup → List SymbolGroup
  | [] => [⟨[s], dests⟩]
  | c :: cs =>
    if c.dests = dests then { c with symbols := c.symbols ++ [s] } :: cs
    else c :: add s dests cs

/-- The edges of a node that consume a given symbol, by destinations. -/
def ofNode (g : Graph) (n : Node) : List SymbolGroup :=
  let symbols := (alphabetical (n.on.map (·.1))).eraseDups
  symbols.foldl (fun cs s =>
    add s (g.ids ((n.on.filter fun e => e.1 = s).map (·.2))) cs) []

end SymbolGroup

/-- A vertex and its edges, by number. -/
structure VertexListing where
  id : Int
  on : List SymbolGroup
  eps : List Int
  any : List Int
deriving DecidableEq, Repr

/-- A vertex and its edges. -/
def VertexListing.ofVertex (g : Graph) (v : Nat) : VertexListing :=
  let n := g.node v
  ⟨n.id, SymbolGroup.ofNode g n, g.ids n.eps, g.ids n.any⟩

/-- The size and the marks of an automaton. -/
structure Summary where
  start : Int
  /-- How many vertices can be reached. -/
  vertices : Nat
  /-- How many vertices are accepting. -/
  accepting : Nat
  deterministic : Bool
  inverted : Bool
  caching : Bool
deriving DecidableEq, Repr

/-- An automaton in full. -/
structure Listing where
  start : Int
  accepting : List Int
  deterministic : Bool
  inverted : Bool
  caching : Bool
  vertices : List VertexListing
deriving DecidableEq, Repr

namespace Acceptor

/-- The size and the marks of an automaton. -/
def summary (x : Acceptor) (g : Graph) : Summary :=
  let a := x.automaton
  ⟨g.id a.start, (a.vertices g).size, a.accepting.size, a.deterministic, a.inverted, x.caching⟩

/-- An automaton in full. -/
def listing (x : Acceptor) (g : Graph) : Listing :=
  let a := x.automaton
  let vertices := (a.vertices g).toList.map (VertexListing.ofVertex g)
  ⟨g.id a.start, g.ids a.accepting.toList, a.deterministic, a.inverted, x.caching,
    vertices.mergeSort fun u v => decide (u.id ≤ v.id)⟩

end Acceptor

end RegexAutomata
