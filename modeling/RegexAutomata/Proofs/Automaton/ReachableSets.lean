/-
The sets of the subset construction.

The construction examines one set after the other.  Each pass gives one more set its row, and all the
sets that wait have been found, so after some passes either none waits or there are more sets than
passes (`Subset.Search.Progress`).  What is found is reached by reading symbols, and if none waits all
that can be reached has been found.  So the passes end, after one for each set that can be reached.

* `Subset.Search.progress`, `Subset.Search.pending_eq_nil_iff` — the passes, and how many there are;
* `Subset.nodup_explore`, `Subset.mem_explore` — what is found;
* `Builder.represents_subsetComplement` — the vertices that are made for the sets, and their edges;
* `Builder.id_lt_of_earlier` — whatever happens to a builder (`Builder.Operation`), numbers of vertices
  are not used again;
* `Builder.subsetComplement_states` — all of this.
-/
import Mathlib.Data.Set.Card
import RegexAutomata.Proofs.Automaton.Determinization
import RegexAutomata.Proofs.Automaton.Reach
import RegexAutomata.Session.Blueprint

namespace RegexAutomata

namespace Subset

variable {g : Graph} {symbols : List Symbol} {s t : VertexSet}

/-- The sets that reading some of the symbols leads to. -/
def reachedSets (g : Graph) (symbols : List Symbol) (s : VertexSet) : Set VertexSet :=
  {t | ∃ w, Over symbols w ∧ g.frontier s w = t}

theorem self_mem_reachedSets (g : Graph) (symbols : List Symbol) (s : VertexSet) :
    s ∈ reachedSets g symbols s := ⟨[], List.forall_mem_nil _, rfl⟩

theorem advance_mem_reachedSets {x : Symbol} (h : t ∈ reachedSets g symbols s)
    (hx : x ∈ symbols) : g.advance t x ∈ reachedSets g symbols s := by
  obtain ⟨w, hw, rfl⟩ := h
  refine ⟨w ++ [x], ?_, by rw [Graph.frontier, List.foldl_append]; rfl⟩
  intro y hy
  rcases List.mem_append.1 hy with hy | hy
  · exact hw y hy
  · rwa [List.mem_singleton.1 hy]

/-- A property of the first set that symbols preserve is one of all sets that are reached. -/
theorem reachedSets_induction {P : VertexSet → Prop} (hs : P s)
    (hstep : ∀ t, P t → ∀ x ∈ symbols, P (g.advance t x)) (ht : t ∈ reachedSets g symbols s) :
    P t := by
  obtain ⟨w, hw, rfl⟩ := ht
  induction w generalizing s with
  | nil => exact hs
  | cons x w ih =>
    obtain ⟨hx, hw⟩ := over_cons.1 hw
    exact ih (hstep s hs x hx) hw

/-! ### Passes -/

/-- The sets that have been found, the rows of some of them, and the others. -/
structure Search where
  found : List VertexSet
  rows : List Row
  pending : List VertexSet

namespace Search

/-- The search before its first pass. -/
def start (s : VertexSet) : Search := ⟨[s], [], [s]⟩

/-- One pass, which examines a set if one waits. -/
def pass (g : Graph) (symbols : List Symbol) (x : Search) : Search :=
  match x.pending with
  | [] => x
  | src :: pending =>
    let dests := successors g symbols src
    let fresh := newcomers x.found dests
    ⟨x.found ++ fresh, (src, dests) :: x.rows, fresh.reverse ++ pending⟩

/-- The whole search makes passes. -/
theorem explore_pass (g : Graph) (symbols : List Symbol) (x : Search) :
    explore g symbols (x.pass g symbols).found (x.pass g symbols).rows
        (x.pass g symbols).pending = explore g symbols x.found x.rows x.pending := by
  obtain ⟨found, rows, _ | ⟨src, pending⟩⟩ := x
  · rfl
  · exact (explore.eq_2 g symbols found rows src pending).symm

theorem explore_iterate (g : Graph) (symbols : List Symbol) (x : Search) (n : Nat) :
    explore g symbols ((pass g symbols)^[n] x).found ((pass g symbols)^[n] x).rows
        ((pass g symbols)^[n] x).pending = explore g symbols x.found x.rows x.pending := by
  induction n with
  | zero => rfl
  | succ n ih =>
    rw [Function.iterate_succ_apply', explore_pass, ih]

/-- What is known after some passes from the start with the set `s`. -/
structure Progress (g : Graph) (symbols : List Symbol) (s : VertexSet) (n : Nat) (x : Search) :
    Prop where
  exploring : Exploring g symbols x.found x.rows x.pending
  first : s ∈ x.found
  nodup : x.found.Nodup
  reached : ∀ t ∈ x.found, t ∈ reachedSets g symbols s
  /-- Each set that has been found has a row or waits. -/
  counted : x.rows.length + x.pending.length = x.found.length
  /-- Each pass has made a row, unless there was nothing left to do. -/
  passes : x.rows.length ≤ n ∧ (x.pending ≠ [] → x.rows.length = n)

theorem nodup_newcomers (found ss : List VertexSet) : (newcomers found ss).Nodup := by
  fun_induction newcomers found ss with
  | case1 => exact .nil
  | case2 found t ss _ ih => exact ih
  | case3 found t ss _ ih =>
    refine List.nodup_cons.2 ⟨fun ht => ?_, ih⟩
    exact (mem_newcomers ht).2 (.head _)

theorem progress_start (g : Graph) (symbols : List Symbol) (s : VertexSet) :
    Progress g symbols s 0 (start s) where
  exploring := ⟨fun t ht => .inl ht, by simp [start], fun t ht => ht⟩
  first := List.mem_singleton_self s
  nodup := List.nodup_singleton s
  reached t ht := by
    rw [List.mem_singleton.1 ht]
    exact self_mem_reachedSets g symbols s
  counted := rfl
  passes := ⟨le_refl _, fun _ => rfl⟩

theorem Progress.pass {n : Nat} {x : Search} (h : Progress g symbols s n x) :
    Progress g symbols s (n + 1) (x.pass g symbols) := by
  obtain ⟨found, rows, pending⟩ := x
  cases pending with
  | nil =>
    exact ⟨h.exploring, h.first, h.nodup, h.reached, h.counted, h.passes.1.trans n.le_succ,
      fun hne => absurd rfl hne⟩
  | cons src pending =>
    have hsrc : src ∈ found := h.exploring.waiting src (.head _)
    set fresh := newcomers found (successors g symbols src) with hfresh
    have hrows : rows.length = n := h.passes.2 (List.cons_ne_nil _ _)
    -- the set that is examined gets its row and no longer waits; its newcomers wait in its place
    refine ⟨h.exploring.next, List.mem_append_left _ h.first, ?_, ?_, ?_, ?_⟩
    · refine List.Nodup.append h.nodup (nodup_newcomers _ _) ?_
      exact fun t ht hnew => (mem_newcomers hnew).2 ht
    · intro t ht
      rcases List.mem_append.1 ht with ht | ht
      · exact h.reached t ht
      · obtain ⟨x, hx, rfl⟩ := List.mem_map.1 (mem_newcomers ht).1
        exact advance_mem_reachedSets (h.reached src hsrc) hx
    · have hcounted : rows.length + (pending.length + 1) = found.length := h.counted
      show rows.length + 1 + (fresh.reverse ++ pending).length = (found ++ fresh).length
      rw [List.length_append, List.length_append, List.length_reverse]
      omega
    · show rows.length + 1 ≤ n + 1 ∧ (_ → rows.length + 1 = n + 1)
      rw [hrows]
      exact ⟨le_refl _, fun _ => rfl⟩

theorem progress (g : Graph) (symbols : List Symbol) (s : VertexSet) (n : Nat) :
    Progress g symbols s n ((Search.pass g symbols)^[n] (start s)) := by
  induction n with
  | zero => exact progress_start g symbols s
  | succ n ih =>
    rw [Function.iterate_succ_apply']
    exact ih.pass

end Search

/-! ### All sets are found -/

/-- If no set waits, all that can be reached have been found. -/
theorem Exploring.mem_found {found : List VertexSet} {rows : List Row}
    (h : Exploring g symbols found rows []) (hs : s ∈ found)
    (ht : t ∈ reachedSets g symbols s) : t ∈ found :=
  reachedSets_induction hs (fun _ hu _ hx => h.closed hu hx) ht

theorem finite_reachedSets (g : Graph) (symbols : List Symbol) (s : VertexSet) :
    (reachedSets g symbols s).Finite := by
  obtain ⟨hend, rest, hrest⟩ := explore_initial g symbols s
  have hs : s ∈ (explore g symbols [s] [] [s]).1 := by
    rw [hrest]
    exact .head _
  exact (List.finite_toSet _).subset fun t ht => hend.mem_found hs ht

theorem ncard_eq_length {l : List VertexSet} (h : l.Nodup) : {t | t ∈ l}.ncard = l.length := by
  have hset : {t | t ∈ l} = (l.toFinset : Set VertexSet) := by
    ext t
    simp
  rw [hset, Set.ncard_coe_finset, List.toFinset_card_of_nodup h]

namespace Search

/-- There is one pass for each set that can be reached. -/
theorem pending_eq_nil_iff (g : Graph) (symbols : List Symbol) (s : VertexSet) (n : Nat) :
    ((pass g symbols)^[n] (start s)).pending = [] ↔ (reachedSets g symbols s).ncard ≤ n := by
  have h := progress g symbols s n
  set x := (pass g symbols)^[n] (start s) with hx
  have hle : x.found.length ≤ (reachedSets g symbols s).ncard := by
    rw [← ncard_eq_length h.nodup]
    exact Set.ncard_le_ncard h.reached (finite_reachedSets g symbols s)
  constructor
  · intro hpending
    -- all sets have been found, each has a row, and no pass makes two rows
    have hexploring := h.exploring
    rw [hpending] at hexploring
    have hall : (reachedSets g symbols s).ncard ≤ x.found.length := by
      rw [← ncard_eq_length h.nodup]
      exact Set.ncard_le_ncard (fun t ht => hexploring.mem_found h.first ht) (List.finite_toSet _)
    have hcounted := h.counted
    rw [hpending, List.length_nil] at hcounted
    have hpasses := h.passes.1
    omega
  · intro hn
    by_contra hne
    -- more sets have been found than there are
    have hpos := List.length_pos_iff.2 hne
    have hcounted := h.counted
    have hrows := h.passes.2 hne
    omega

theorem explore_eq {n : Nat} (hn : (reachedSets g symbols s).ncard ≤ n) :
    explore g symbols [s] [] [s] =
      (((pass g symbols)^[n] (start s)).found, ((pass g symbols)^[n] (start s)).rows) := by
  have hpending := (pending_eq_nil_iff g symbols s n).2 hn
  have hexplore := explore_iterate g symbols (start s) n
  rw [hpending, explore] at hexplore
  exact hexplore.symm

end Search

theorem nodup_explore (g : Graph) (symbols : List Symbol) (s : VertexSet) :
    (explore g symbols [s] [] [s]).1.Nodup := by
  rw [Search.explore_eq (le_refl _)]
  exact (Search.progress g symbols s _).nodup

/-- What is found is what can be reached. -/
theorem mem_explore : t ∈ (explore g symbols [s] [] [s]).1 ↔ t ∈ reachedSets g symbols s := by
  obtain ⟨hend, rest, hrest⟩ := explore_initial g symbols s
  constructor
  · rw [Search.explore_eq (le_refl _)]
    exact (Search.progress g symbols s _).reached t
  · refine hend.mem_found ?_
    rw [hrest]
    exact .head _

/-! ### The new vertices -/

/-- The new vertices have no edges, and their numbers count down. -/
theorem node_addVertices (g : Graph) (subsets : Nat) {n i : Nat} (hi : i < n) :
    (addVertices g subsets n).node (g.size + i) = .bare (-(subsets + 1 + i : Nat)) := by
  induction n generalizing g subsets i with
  | zero => omega
  | succ n ih =>
    rw [addVertices]
    cases i with
    | zero =>
      have hold := (adds_addVertices (g.addVertex (-(subsets + 1 : Nat))) (subsets + 1) n).node
        g.size (by simp) (by simp)
      show (addVertices (g.addVertex _) (subsets + 1) n).node g.size = .bare (-(subsets + 1 : Nat))
      rw [hold, Graph.node_addVertex, if_pos rfl]
    | succ i =>
      have hnew := ih (g.addVertex (-(subsets + 1 : Nat))) (subsets + 1) (Nat.lt_of_succ_lt_succ hi)
      rw [Graph.size_addVertex] at hnew
      rw [show g.size + (i + 1) = g.size + 1 + i by omega, hnew]
      congr 2
      omega

/-- An edge that reads a symbol changes neither the number of a vertex nor its edges for any
symbol. -/
theorem node_link_one (g : Graph) (u : Nat) (x : Symbol) (v y : Nat) :
    ((g.link u (.one x) v).node y).id = (g.node y).id ∧
      ((g.link u (.one x) v).node y).any = (g.node y).any := by
  unfold Graph.link
  split
  · rw [Graph.node_eq, Graph.node_eq]
    simp only [Array.getElem?_modify]
    by_cases h : u = y
    · rw [if_pos h]
      cases g.nodes[y]? <;> exact ⟨rfl, rfl⟩
    · rw [if_neg h]
      exact ⟨rfl, rfl⟩
  · exact ⟨rfl, rfl⟩

theorem node_linkRows (symbols : List Symbol) (base : Nat) (found : List VertexSet)
    (rows : List Row) (k : Graph) (y : Nat) :
    ((rows.foldl (linkRow symbols base found) k).node y).id = (k.node y).id ∧
      ((rows.foldl (linkRow symbols base found) k).node y).any = (k.node y).any := by
  let Kept (k' : Graph) : Prop := (k'.node y).id = (k.node y).id ∧ (k'.node y).any = (k.node y).any
  refine List.foldlRecOn (motive := Kept) rows _ ⟨rfl, rfl⟩ fun k₁ h₁ row _ => ?_
  refine List.foldlRecOn (motive := Kept) (symbols.zip row.2) _ h₁ fun k₂ h₂ e _ => ?_
  have hlink := node_link_one k₂ (base + found.idxOf row.1) e.1 (base + found.idxOf e.2) y
  exact ⟨hlink.1.trans h₂.1, hlink.2.trans h₂.2⟩

end Subset

namespace Builder

/-- The sets that the subset construction finds. -/
def setsOf (b : Builder) (symbols : List Symbol) (a : Automaton) : List VertexSet :=
  (Subset.explore b.graph symbols [a.initial b.graph] [] [a.initial b.graph]).1

/-- The vertex that it makes for a set. -/
def vertexOf (b : Builder) (symbols : List Symbol) (a : Automaton) (s : VertexSet) : Nat :=
  b.graph.size + (b.setsOf symbols a).idxOf s

/-- The vertices of the automaton stand for the sets that can be reached, one for each.  They are
final where the operand is not, and on each symbol an edge leads to the vertex of the set that the
symbol leads to; there are no other edges. -/
structure Represents (b : Builder) (symbols : List Symbol) (a : Automaton) (b' : Builder)
    (d : Automaton) (vertex : VertexSet → Nat) : Prop where
  start : d.start = vertex (a.initial b.graph)
  bijective : Set.BijOn vertex (Subset.reachedSets b.graph symbols (a.initial b.graph))
    {v | v ∈ d.vertices b'.graph}
  accepting : ∀ s ∈ Subset.reachedSets b.graph symbols (a.initial b.graph),
    vertex s ∈ d.accepting ↔ ¬ a.isFinal s = true
  on : ∀ s ∈ Subset.reachedSets b.graph symbols (a.initial b.graph), ∀ x v,
    (x, v) ∈ (b'.graph.node (vertex s)).on ↔ x ∈ symbols ∧ v = vertex (b.graph.advance s x)
  eps : ∀ v ∈ d.vertices b'.graph, (b'.graph.node v).eps = []
  any : ∀ v ∈ d.vertices b'.graph, (b'.graph.node v).any = []

section

variable (b : Builder) (symbols : List Symbol) (a : Automaton)

/-- The new vertices are numbered one after the other, and have no edges for any symbol. -/
theorem node_subsetComplement {i : Nat}
    (hi : b.graph.size + i < (b.subsetComplement symbols a).1.graph.size) :
    (b.subsetComplement symbols a).1.graph.id (b.graph.size + i) = -(b.subsets + 1 + i : Nat) ∧
      ((b.subsetComplement symbols a).1.graph.node (b.graph.size + i)).any = [] := by
  obtain ⟨_, hsize, _⟩ := b.follows_subsetComplement symbols a
  rw [hsize] at hi
  have hbare := Subset.node_addVertices b.graph b.subsets (Nat.add_lt_add_iff_left.1 hi)
  obtain ⟨hid, hany⟩ := Subset.node_linkRows symbols b.graph.size _ _ _ _
  exact ⟨hid.trans (congrArg Node.id hbare), hany.trans (congrArg Node.any hbare)⟩

theorem vertexOf_block {s : VertexSet} (hs : s ∈ b.setsOf symbols a) :
    Graph.Block b.graph.size (b.subsetComplement symbols a).1.graph.size
      (b.vertexOf symbols a s) := by
  rw [(b.follows_subsetComplement symbols a).2.1]
  exact ⟨Nat.le_add_right _ _, Nat.add_lt_add_left (List.idxOf_lt_length_of_mem hs) _⟩

/-- The edges of the vertex of a set. -/
theorem edges_vertexOf {s : VertexSet} (hs : s ∈ b.setsOf symbols a) :
    let n := (b.subsetComplement symbols a).1.graph.node (b.vertexOf symbols a s)
    n.eps = [] ∧ n.any = [] ∧ ∀ x v, (x, v) ∈ n.on ↔
      x ∈ symbols ∧ v = b.vertexOf symbols a (b.graph.advance s x) := by
  intro n
  obtain ⟨hfollows, _⟩ := b.follows_subsetComplement symbols a
  have hany : n.any = [] :=
    (b.node_subsetComplement symbols a (b.vertexOf_block symbols a hs).2).2
  refine ⟨List.eq_nil_iff_forall_not_mem.2 (hfollows.eps s hs), hany, fun x v => ?_⟩
  have hstep : v ∈ n.step x ↔ _ := hfollows.step s hs x v
  rw [Node.mem_step, hany, or_iff_left List.not_mem_nil] at hstep
  exact hstep

/-- What can be reached from the start are the vertices of the sets, and these are all the new
vertices. -/
theorem mem_vertices_subsetComplement (v : Nat) :
    (v ∈ (b.subsetComplement symbols a).2.vertices (b.subsetComplement symbols a).1.graph ↔
      ∃ s ∈ b.setsOf symbols a, b.vertexOf symbols a s = v) ∧
    (Graph.Block b.graph.size (b.subsetComplement symbols a).1.graph.size v ↔
      ∃ s ∈ b.setsOf symbols a, b.vertexOf symbols a s = v) := by
  obtain ⟨hfollows, hsize, _⟩ := b.follows_subsetComplement symbols a
  obtain ⟨hmem, hstart⟩ := b.initial_found symbols a
  have hd : (b.subsetComplement symbols a).2.start = b.vertexOf symbols a (a.initial b.graph) :=
    hstart
  refine ⟨?_, ?_⟩
  -- edges lead from vertices of sets to vertices of sets, and each set is reached by a path
  · rw [Automaton.vertices, Graph.mem_reachable, hd]
    constructor
    · intro hreaches
      induction hreaches with
      | refl => exact ⟨_, hmem, rfl⟩
      | tail _ hedge ih =>
        obtain ⟨s, hs, rfl⟩ := ih
        obtain ⟨heps, hany, hon⟩ := b.edges_vertexOf symbols a hs
        rw [Node.mem_targets, heps, hany] at hedge
        rcases hedge with hedge | hedge | ⟨x, hedge⟩
        · cases hedge
        · cases hedge
        · obtain ⟨hx, rfl⟩ := (hon x _).1 hedge
          exact ⟨_, hfollows.closed s hs x hx, rfl⟩
    · rintro ⟨s, hs, rfl⟩
      obtain ⟨w, hw, rfl⟩ := Subset.mem_explore.1 hs
      exact ((hfollows.path_iff hmem).2 ⟨hw, rfl⟩).reaches
  · constructor
    · rintro ⟨hlow, hhigh⟩
      have hlt : v - b.graph.size < (b.setsOf symbols a).length := by
        rw [hsize] at hhigh
        show v - b.graph.size < (Subset.explore _ _ _ _ _).1.length
        omega
      refine ⟨_, List.getElem_mem hlt, ?_⟩
      have hnodup : (b.setsOf symbols a).Nodup := Subset.nodup_explore _ _ _
      rw [vertexOf, hnodup.idxOf_getElem]
      omega
    · rintro ⟨s, hs, rfl⟩
      exact b.vertexOf_block symbols a hs

theorem represents_subsetComplement :
    b.Represents symbols a (b.subsetComplement symbols a).1 (b.subsetComplement symbols a).2
      (b.vertexOf symbols a) := by
  have hvertices := fun v => (b.mem_vertices_subsetComplement symbols a v).1
  have hsets : ∀ s, s ∈ b.setsOf symbols a ↔
      s ∈ Subset.reachedSets b.graph symbols (a.initial b.graph) := fun _ => Subset.mem_explore
  refine ⟨(b.initial_found symbols a).2, ⟨?_, ?_, ?_⟩, fun s hs => ?_, fun s hs => ?_,
    fun v hv => ?_, fun v hv => ?_⟩
  · exact fun s hs => (hvertices _).2 ⟨s, (hsets s).2 hs, rfl⟩
  · intro s hs t _ heq
    exact List.idxOf_inj ((hsets s).2 hs) |>.1 (Nat.add_left_cancel heq)
  · intro v hv
    obtain ⟨s, hs, rfl⟩ := (hvertices v).1 hv
    exact ⟨s, (hsets s).1 hs, rfl⟩
  · exact Subset.mem_accepting ((hsets s).2 hs)
  · exact (b.edges_vertexOf symbols a ((hsets s).2 hs)).2.2
  · obtain ⟨s, hs, rfl⟩ := (hvertices v).1 hv
    exact (b.edges_vertexOf symbols a hs).1
  · obtain ⟨s, hs, rfl⟩ := (hvertices v).1 hv
    exact (b.edges_vertexOf symbols a hs).2.1

theorem id_subsetComplement {v : Nat}
    (hv : v ∈ (b.subsetComplement symbols a).2.vertices (b.subsetComplement symbols a).1.graph) :
    ∃ i, b.graph.size + i = v ∧ i < (b.setsOf symbols a).length ∧
      (b.subsetComplement symbols a).1.graph.id v = -(b.subsets + 1 + i : Nat) := by
  obtain ⟨s, hs, rfl⟩ := (b.mem_vertices_subsetComplement symbols a v).1.1 hv
  have hlt := (b.vertexOf_block symbols a hs).2
  exact ⟨_, rfl, List.idxOf_lt_length_of_mem hs, (b.node_subsetComplement symbols a hlt).1⟩

end

/-! ### Numbers -/

/-- What can happen to a builder at once. -/
inductive Operation : Builder → Builder → Prop
  | report (b : Builder) (e : Event) : Operation b (b.report e)
  | forgetEvents (b : Builder) : Operation b { b with events := [] }
  /-- A pattern is compiled, and the numbers of its vertices start anew. -/
  | restart (b : Builder) : Operation b { b with nextId := 0 }
  | atom (b : Builder) (x : Atom) : Operation b (b.atom x).1
  | emptyString (b : Builder) : Operation b b.emptyString.1
  | concatenate (b : Builder) (f s : Automaton) : Operation b (b.concatenate? f s).1
  | union (b : Builder) (f s : Automaton) : Operation b (b.union? f s).1
  | star (b : Builder) (f : Automaton) : Operation b (b.star? f).1
  | complement (b : Builder) (symbols : List Symbol) (a : Automaton) :
    Operation b (b.complement symbols a).1
  | link (b : Builder) (u : Nat) (x : Atom) (v : Nat) :
    Operation b { b with graph := b.graph.link u x v }
  | build (b : Builder) (plan : Blueprint) : Operation b (plan.build b).1

/-- No operation gives numbers of subsets back. -/
theorem Operation.subsets_le {b b' : Builder} (h : Operation b b') : b.subsets ≤ b'.subsets := by
  cases h with
  | report | forgetEvents | restart | atom | emptyString | link | build => exact le_refl _
  | concatenate f s =>
    unfold concatenate?
    split
    · exact le_refl _
    · exact le_refl _
  | union f s =>
    unfold union?
    split
    · exact le_refl _
    · exact le_refl _
  | star f =>
    unfold star?
    split
    · exact le_refl _
    · exact le_refl _
  | complement symbols a =>
    unfold Builder.complement
    split
    · exact le_refl _
    · exact Nat.le_add_right _ _

/-- The second builder has been made from the first one by operations. -/
abbrev Operates (b b' : Builder) : Prop := Relation.ReflTransGen Operation b b'

theorem Operates.subsets_le {b b' : Builder} (h : b.Operates b') : b.subsets ≤ b'.subsets := by
  induction h with
  | refl => exact le_refl _
  | tail _ hstep ih => exact ih.trans hstep.subsets_le

/-- The numbers of the new vertices are below those of any construction before, whatever has happened
since. -/
theorem id_lt_of_earlier {b₀ b : Builder} {symbols₀ symbols : List Symbol} {a₀ a : Automaton}
    (h : (b₀.subsetComplement symbols₀ a₀).1.Operates b) {u v : Nat}
    (hu : u ∈ (b₀.subsetComplement symbols₀ a₀).2.vertices (b₀.subsetComplement symbols₀ a₀).1.graph)
    (hv : v ∈ (b.subsetComplement symbols a).2.vertices (b.subsetComplement symbols a).1.graph) :
    (b.subsetComplement symbols a).1.graph.id v <
      (b₀.subsetComplement symbols₀ a₀).1.graph.id u := by
  obtain ⟨i, _, hi, hidu⟩ := b₀.id_subsetComplement symbols₀ a₀ hu
  obtain ⟨j, _, _, hidv⟩ := b.id_subsetComplement symbols a hv
  have hsubsets : b₀.subsets + (b₀.setsOf symbols₀ a₀).length ≤ b.subsets :=
    h.subsets_le
  rw [hidu, hidv]
  omega

/-- The subset construction makes one vertex for each set of vertices that the operand can be at.
Its search takes one pass for each of them and ends.  Each vertex has one edge for each symbol, which
leads to the vertex of the set that the symbol leads to, and no other edges; the numbers of the
vertices are negative and different from each other and from those of earlier constructions.  The
operand keeps its vertices and edges. -/
theorem subsetComplement_states (b : Builder) (alphabet : Alphabet) (a : Automaton) :
    let symbols := alphabet.operating
    let initial := a.initial b.graph
    let sets := Subset.reachedSets b.graph symbols initial
    let b' := (b.subsetComplement symbols a).1
    let d := (b.subsetComplement symbols a).2
    sets.Finite ∧
      (∀ n, let x := (Subset.Search.pass b.graph symbols)^[n] (.start initial)
        (x.pending = [] ↔ sets.ncard ≤ n) ∧
          (x.pending = [] →
            Subset.explore b.graph symbols [initial] [] [initial] = (x.found, x.rows))) ∧
      (∃ vertex, b.Represents symbols a b' d vertex) ∧
      (∀ v ∈ d.vertices b'.graph, b'.graph.id v < 0) ∧
      Set.InjOn b'.graph.id {v | v ∈ d.vertices b'.graph} ∧
      (∀ (b₀ : Builder) (symbols₀ : List Symbol) (a₀ : Automaton),
        let earlier := b₀.subsetComplement symbols₀ a₀
        earlier.1.Operates b →
          ∀ u ∈ earlier.2.vertices earlier.1.graph, ∀ v ∈ d.vertices b'.graph,
            b'.graph.id v ≠ earlier.1.graph.id u) ∧
      ∀ v < b.graph.size, b'.graph.node v = b.graph.node v := by
  intro symbols initial sets b' d
  refine ⟨Subset.finite_reachedSets _ _ _, fun n => ⟨?_, fun hpending => ?_⟩,
    ⟨_, b.represents_subsetComplement symbols a⟩, fun v hv => ?_, fun u hu v hv huv => ?_,
    fun _ _ _ h _ hu _ hv => (id_lt_of_earlier h hu hv).ne,
    (b.follows_subsetComplement symbols a).2.2⟩
  · exact Subset.Search.pending_eq_nil_iff b.graph symbols initial n
  · exact Subset.Search.explore_eq ((Subset.Search.pending_eq_nil_iff _ _ _ n).1 hpending)
  · obtain ⟨i, _, _, hid⟩ := b.id_subsetComplement symbols a hv
    rw [hid]
    omega
  · obtain ⟨i, rfl, _, hi⟩ := b.id_subsetComplement symbols a hu
    obtain ⟨j, rfl, _, hj⟩ := b.id_subsetComplement symbols a hv
    rw [hi, hj] at huv
    omega

end Builder

end RegexAutomata
