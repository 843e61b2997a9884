/-
The subset construction and the complement.

The construction finds all sets of vertices at which an automaton can be.  It starts with
the initial one and looks, for the set that was found last and not examined yet, where
each symbol leads.  There are finitely many sets of vertices, so it ends
(`missingSubsets_lt`).  Each set found becomes one vertex of a deterministic automaton.

Taking for accepting the sets that the given automaton does not accept in gives its
complement, over the symbols that were tried.  An automaton that is already known to be
deterministic is inverted instead.
-/
import RegexAutomata.Automaton.Fragment

namespace RegexAutomata

/-! ### Counting subsets -/

/-- The sublists of a list. -/
def sublistsOf : List Nat → List (List Nat)
  | [] => [[]]
  | v :: vs => sublistsOf vs ++ (sublistsOf vs).map (v :: ·)

theorem mem_sublistsOf {l m : List Nat} (h : m.Sublist l) : m ∈ sublistsOf l := by
  induction h with
  | slnil => simp [sublistsOf]
  | cons a _ ih => simp [sublistsOf, ih]
  | cons_cons a _ ih => simp [sublistsOf, ih]

namespace VertexSet

theorem mem_sublistsOf_range {s : VertexSet} {bound : Nat} (h : ∀ v ∈ s, v < bound) :
    s.toList ∈ sublistsOf (List.range bound) := by
  have e : s.toList = (List.range bound).filter fun v => s.toList.contains v := by
    refine eq_of_mem_iff s.sorted (List.pairwise_lt_range.filter _) fun v => ?_
    simp only [List.mem_filter, List.mem_range, List.contains_eq_mem, decide_eq_true_eq]
    exact ⟨fun hv => ⟨h v hv, hv⟩, fun hv => hv.2⟩
  rw [e]
  exact mem_sublistsOf List.filter_sublist

theorem mem_saturate_lt {bound : Nat} {next : Nat → List Nat}
    {below : ∀ v, ∀ w ∈ next v, w < bound} {seen frontier : VertexSet} {v : Nat}
    (h : v ∈ saturate bound next below seen frontier) : v ∈ seen ∨ v < bound := by
  fun_induction saturate bound next below seen frontier with
  | case1 seen frontier fresh hx => exact .inl h
  | case2 seen frontier fresh hx ih =>
    rcases ih h with h | h
    · rcases mem_union.1 h with h | h
      · exact .inl h
      · obtain ⟨u, _, hu⟩ := mem_image.1 (mem_diff.1 h).1
        exact .inr (below u v hu)
    · exact .inr h

end VertexSet

theorem Graph.lt_size_of_mem_advance {g : Graph} {src : VertexSet} {s : Symbol} {v : Nat}
    (h : v ∈ g.advance src s) : v < g.size := by
  rcases VertexSet.mem_saturate_lt h with h | h
  · obtain ⟨u, _, hu⟩ := VertexSet.mem_image.1 h
    exact lt_size_of_mem_targets (Node.mem_targets_of_mem_step hu)
  · exact h

namespace Subset

/-- How many sets of vertices below a bound have not been found. -/
def missingSubsets (bound : Nat) (found : List VertexSet) : Nat :=
  ((sublistsOf (List.range bound)).filter fun l => !(found.map (·.toList)).contains l).length

/-- The members of a list that have not been found, each once. -/
def newcomers (found : List VertexSet) : List VertexSet → List VertexSet
  | [] => []
  | s :: ss =>
    if found.contains s then newcomers found ss else s :: newcomers (s :: found) ss

theorem mem_newcomers {found ss : List VertexSet} {s : VertexSet}
    (h : s ∈ newcomers found ss) : s ∈ ss ∧ s ∉ found := by
  fun_induction newcomers found ss with
  | case1 => simp at h
  | case2 found t ss _ ih => exact ⟨.tail _ (ih h).1, (ih h).2⟩
  | case3 found t ss ht ih =>
    rcases List.mem_cons.1 h with rfl | h
    · exact ⟨.head _, by simpa using ht⟩
    · exact ⟨.tail _ (ih h).1, fun hs => (ih h).2 (.tail _ hs)⟩

theorem missingSubsets_lt {bound : Nat} {found fresh : List VertexSet} {s : VertexSet}
    (hs : s ∈ fresh) (hb : ∀ v ∈ s, v < bound) (hn : s ∉ found) :
    missingSubsets bound (found ++ fresh) < missingSubsets bound found := by
  have hfil : (sublistsOf (List.range bound)).filter
        (fun l => !((found ++ fresh).map (·.toList)).contains l) =
      ((sublistsOf (List.range bound)).filter fun l => !(found.map (·.toList)).contains l).filter
        (fun l => !((found ++ fresh).map (·.toList)).contains l) := by
    rw [List.filter_filter]
    refine List.filter_congr fun l _ => ?_
    simp only [List.map_append, List.contains_eq_mem, List.mem_append, Bool.decide_or,
      Bool.not_or]
    cases decide (l ∈ found.map (·.toList)) <;> simp
  unfold missingSubsets
  rw [hfil]
  refine List.length_filter_lt_length_iff_exists.2 ⟨s.toList, ?_, ?_⟩
  · simp only [List.mem_filter, Bool.not_eq_true', List.contains_eq_mem,
      decide_eq_false_iff_not, List.mem_map, not_exists, not_and]
    refine ⟨VertexSet.mem_sublistsOf_range hb, fun t ht e => hn ?_⟩
    rwa [← VertexSet.ext (s := t) (t := s) fun v => by rw [VertexSet.mem_def, e]; rfl]
  · have h : s.toList ∈ (found ++ fresh).map (·.toList) :=
      List.mem_map.2 ⟨s, List.mem_append.2 (.inr hs), rfl⟩
    simp only [List.contains_eq_mem, decide_eq_true h, Bool.not_true]
    exact Bool.false_ne_true

/-! ### The construction -/

/-- A set that was examined, and where each symbol leads from it. -/
abbrev Row := VertexSet × List VertexSet

/-- Where each symbol leads from a set. -/
def successors (g : Graph) (symbols : List Symbol) (src : VertexSet) : List VertexSet :=
  symbols.map (g.advance src)

/-- An examined set either brings new ones to light, which leaves fewer to be found, or
leaves fewer to be examined. -/
theorem explore_measure_lt (g : Graph) (symbols : List Symbol) (found pending : List VertexSet)
    (src : VertexSet) :
    Prod.Lex (· < ·) (· < ·)
      (missingSubsets g.size (found ++ newcomers found (successors g symbols src)),
        ((newcomers found (successors g symbols src)).reverse ++ pending).length)
      (missingSubsets g.size found, (src :: pending).length) := by
  rcases hf : newcomers found (successors g symbols src) with _ | ⟨s, ss⟩
  · simp only [List.append_nil, List.reverse_nil, List.nil_append, List.length_cons]
    exact Prod.Lex.right _ (Nat.lt_succ_self _)
  · have hs : s ∈ newcomers found (successors g symbols src) := by rw [hf]; exact .head _
    obtain ⟨hm, hn⟩ := mem_newcomers hs
    obtain ⟨x, _, rfl⟩ := List.mem_map.1 hm
    refine Prod.Lex.left _ _ (missingSubsets_lt (.head _) (fun v hv => ?_) hn)
    exact Graph.lt_size_of_mem_advance hv

/-- All sets that can be met, in the order in which they are found, and their rows.
`pending` sets have been found but not examined; the one found last comes first. -/
def explore (g : Graph) (symbols : List Symbol) (found : List VertexSet) (rows : List Row) :
    List VertexSet → List VertexSet × List Row
  | [] => (found, rows)
  | src :: pending =>
    let dests := successors g symbols src
    let fresh := newcomers found dests
    -- newcomers are numbered in the order of the symbols, and examined in the reverse order
    explore g symbols (found ++ fresh) ((src, dests) :: rows) (fresh.reverse ++ pending)
termination_by pending => (missingSubsets g.size found, pending.length)
decreasing_by exact explore_measure_lt g symbols found pending src

/-- One vertex for each of a number of sets; the numbers count down. -/
def addVertices (g : Graph) (subsets : Nat) : Nat → Graph
  | 0 => g
  | n + 1 => addVertices (g.addVertex (-(subsets + 1 : Nat))) (subsets + 1) n

/-- The edges of one row, where the sets found are the vertices from `base` on. -/
def linkRow (symbols : List Symbol) (base : Nat) (found : List VertexSet) (g : Graph)
    (row : Row) : Graph :=
  let source := base + found.idxOf row.1
  (symbols.zip row.2).foldl (fun g e => g.link source (.one e.1) (base + found.idxOf e.2)) g

end Subset

namespace Builder

/-- A deterministic automaton over some symbols that accepts where the given one does
not. -/
def subsetComplement (b : Builder) (symbols : List Symbol) (a : Automaton) :
    Builder × Automaton :=
  let initial := a.initial b.graph
  let (found, rows) := Subset.explore b.graph symbols [initial] [] [initial]
  let base := b.graph.size
  -- a set accepts exactly if the given automaton does not
  let accepting := (List.range found.length).filter fun i =>
    (found[i]?.map fun s => !a.isFinal s).getD false
  -- the i-th set found becomes the vertex `base + i`
  let graph := Subset.addVertices b.graph b.subsets found.length
  let graph := rows.foldl (Subset.linkRow symbols base found) graph
  let b := { b with graph, subsets := b.subsets + found.length }
  (b.report (.determinized found.length symbols.length),
    ⟨base, .ofList (accepting.map (base + ·)), true, false⟩)

/-- An automaton that accepts the sequences of some symbols that the given one
rejects. -/
def complement (b : Builder) (symbols : List Symbol) (a : Automaton) : Builder × Automaton :=
  if a.deterministic then (b, { a with inverted := !a.inverted })
  else b.subsetComplement symbols a

end Builder

end RegexAutomata
