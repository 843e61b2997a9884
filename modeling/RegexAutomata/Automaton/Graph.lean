/-
Graphs with labelled edges.

All automata live in one graph.  A vertex is a place in the array of nodes; besides it
a node has the number under which it is shown.  An edge consumes nothing, one given
symbol, or any symbol.  Every edge ends at a vertex of the graph (`Graph.closed`), which
is why following edges comes to an end: `closure` follows those that consume nothing,
`reachable` follows all of them.
-/
import RegexAutomata.Atom
import RegexAutomata.Automaton.Marks

namespace RegexAutomata

/-- A vertex and the edges that leave it. -/
structure Node where
  /-- The number under which the vertex is shown. -/
  id : Int
  /-- Edges that consume a given symbol. -/
  on : List (Symbol × Nat)
  /-- Edges that consume nothing. -/
  eps : List Nat
  /-- Edges that consume any one symbol. -/
  any : List Nat
deriving DecidableEq, Repr

namespace Node

/-- A vertex without edges. -/
def bare (id : Int) : Node := ⟨id, [], [], []⟩

/-- The ends of all edges, each as often as an edge of a new label leads there. -/
def targets (n : Node) : List Nat := n.eps ++ n.any ++ n.on.map (·.2)

/-- The ends of the edges that consume a symbol. -/
def step (n : Node) (s : Symbol) : List Nat :=
  n.on.filterMap (fun e => if e.1 = s then some e.2 else none) ++ n.any

/-- The node with one more edge, unless it has that edge. -/
def link (n : Node) (a : Atom) (v : Nat) : Node :=
  match a with
  | .empty => { n with eps := n.eps.insert v }
  | .one s => { n with on := n.on.insert (s, v) }
  | .any => { n with any := n.any.insert v }

theorem mem_targets {n : Node} {v : Nat} :
    v ∈ n.targets ↔ v ∈ n.eps ∨ v ∈ n.any ∨ ∃ s, (s, v) ∈ n.on := by
  simp [targets]

theorem mem_step {n : Node} {s : Symbol} {v : Nat} :
    v ∈ n.step s ↔ (s, v) ∈ n.on ∨ v ∈ n.any := by
  simp [step]

theorem mem_targets_of_mem_step {n : Node} {s : Symbol} {v : Nat} (h : v ∈ n.step s) :
    v ∈ n.targets := by
  rcases mem_step.1 h with h | h
  · exact mem_targets.2 (.inr (.inr ⟨s, h⟩))
  · exact mem_targets.2 (.inr (.inl h))

theorem mem_targets_link {n : Node} {a : Atom} {v w : Nat} :
    w ∈ (n.link a v).targets ↔ w = v ∨ w ∈ n.targets := by
  cases a <;> simp only [link, mem_targets, List.mem_insert_iff, Prod.mk.injEq] <;> grind

end Node

/-- An array of nodes none of whose edges leads outside. -/
structure Graph where
  nodes : Array Node
  closed : ∀ n ∈ nodes, ∀ v ∈ n.targets, v < nodes.size
deriving DecidableEq

namespace Graph

/-- The graph without vertices. -/
def empty : Graph := ⟨#[], by simp⟩

/-- The number of vertices, which is also the next vertex to be added. -/
def size (g : Graph) : Nat := g.nodes.size

/-- The node at a vertex; there are no edges outside the graph. -/
def node (g : Graph) (v : Nat) : Node := g.nodes.getD v (.bare 0)

/-- The number under which a vertex is shown. -/
def id (g : Graph) (v : Nat) : Int := (g.node v).id

theorem lt_size_of_mem_targets {g : Graph} {v w : Nat} (h : w ∈ (g.node v).targets) :
    w < g.size := by
  unfold node Array.getD at h
  split at h
  · exact g.closed _ (Array.getElem_mem _) _ h
  · simp [Node.bare, Node.targets] at h

/-! ### Growing -/

/-- The graph with one more vertex, which has no edges. -/
def addVertex (g : Graph) (id : Int) : Graph where
  nodes := g.nodes.push (.bare id)
  closed := by
    intro n hn v hv
    rw [Array.size_push]
    rcases Array.mem_push.1 hn with hn | rfl
    · exact Nat.lt_succ_of_lt (g.closed n hn v hv)
    · simp [Node.bare, Node.targets] at hv

/-- The graph with one more edge, if both of its ends are vertices. -/
def link (g : Graph) (u : Nat) (a : Atom) (v : Nat) : Graph :=
  if h : v < g.size then
    { nodes := g.nodes.modify u fun n => n.link a v
      closed := by
        intro n hn w hw
        rw [Array.size_modify]
        obtain ⟨i, hi, rfl⟩ := Array.mem_iff_getElem.1 hn
        rw [Array.getElem_modify] at hw
        rw [Array.size_modify] at hi
        split at hw
        · rcases Node.mem_targets_link.1 hw with rfl | hw
          · exact h
          · exact g.closed _ (Array.getElem_mem hi) _ hw
        · exact g.closed _ (Array.getElem_mem hi) _ hw }
  else g

/-- Edges that consume nothing, from each of some vertices to one vertex. -/
def linkAll (g : Graph) (us : List Nat) (v : Nat) : Graph :=
  us.foldl (fun g u => g.link u .empty v) g

/-! ### Following edges -/

/-- What can be reached from the vertices of a set without consuming anything. -/
def closure (g : Graph) (s : VertexSet) : VertexSet :=
  VertexSet.saturate g.size (fun v => (g.node v).eps)
    (fun _ _ hw => lt_size_of_mem_targets (Node.mem_targets.2 (.inl hw))) s s

/-- Where the edges that consume a symbol lead to from the vertices of a set. -/
def step (g : Graph) (src : VertexSet) (s : Symbol) : VertexSet :=
  src.image fun v => (g.node v).step s

/-- What can be reached from a set by consuming one symbol. -/
def advance (g : Graph) (src : VertexSet) (s : Symbol) : VertexSet := g.closure (g.step src s)

/-- What can be reached from a vertex by any edges, the vertex itself included. -/
def reachable (g : Graph) (v : Nat) : VertexSet :=
  (Marks.walk (fun u => (g.node u).targets) (Marks.none g.size) [v]).toSet.insert v

end Graph

end RegexAutomata
