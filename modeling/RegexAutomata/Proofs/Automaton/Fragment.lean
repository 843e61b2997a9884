/-
Operators on automata that own a block of the graph.

While a pattern is compiled, each automaton on the stack owns a block of vertices: it starts and
accepts there, and no edge leads out (`Operand`).  An operator takes the last one or two blocks
and makes one block of them, to which it adds what vertices it needs (`Makes`).  The vertices
before that block are left alone.

* `Builder.concatenate_spec`, `union_spec`, `star_spec` — the edges that an operator adds;
* `Builder.makes_atom`, `makes_concatenate`, `makes_union`, `makes_star`, `makes_complement` —
  what each operator makes, with the language of the result.
-/
import RegexAutomata.Proofs.Automaton.Determinization
import RegexAutomata.Proofs.Automaton.Operators

open scoped Computability

namespace RegexAutomata

open RegexAutomata.Graph (Block Adds)

theorem Graph.Region.of_reaches {g : Graph} {F : Nat → Prop} (hF : g.Region F) {u v : Nat}
    (hu : F u) (h : g.Reaches u v) : F v := by
  induction h with
  | refl => exact hu
  | tail _ hbc ih => exact hF _ ih _ hbc

/-- The automaton starts and accepts at vertices of the graph. -/
structure Automaton.Inside (a : Automaton) (g : Graph) : Prop where
  start : a.start < g.size
  accepting : ∀ v ∈ a.accepting, v < g.size

/-- An automaton for a language that owns a block of vertices.  If it is marked as
deterministic, the sequences of the symbols lead to one vertex each; it is inverted only then. -/
structure Operand (symbols : List Symbol) (g : Graph) (lo hi : Nat) (a : Automaton)
    (L : Language Symbol) : Prop where
  region : g.Region (Block lo hi)
  start : Block lo hi a.start
  accepting : ∀ v ∈ a.accepting, Block lo hi v
  language : a.language g = L
  total : a.deterministic = true → a.TotalOver g symbols
  upright : a.inverted = true → a.deterministic = true

namespace Operand

variable {symbols : List Symbol} {g g' : Graph} {lo hi : Nat} {a : Automaton}
  {L : Language Symbol}

theorem lo_le (h : Operand symbols g lo hi a L) : lo ≤ hi :=
  h.start.1.trans h.start.2.le

theorem congr (h : Operand symbols g lo hi a L)
    (hagree : ∀ v, Block lo hi v → g'.node v = g.node v) : Operand symbols g' lo hi a L where
  region := h.region.congr hagree
  start := h.start
  accepting := h.accepting
  language := (Automaton.language_congr h.region hagree h.start).trans h.language
  total := by
    intro hd
    exact (h.total hd).congr h.region hagree h.start
  upright := h.upright

theorem ofPlain {start : Nat} {accepting : VertexSet} (hregion : g.Region (Block lo hi))
    (hstart : Block lo hi start) (haccepting : ∀ v ∈ accepting, Block lo hi v)
    (hlanguage : (Automaton.plain start accepting).language g = L) :
    Operand symbols g lo hi (.plain start accepting) L where
  region := hregion
  start := hstart
  accepting := haccepting
  language := hlanguage
  total := nofun
  upright := nofun

/-- An operand can be replaced by one that is not inverted. -/
theorem exists_uninverted (h : Operand symbols g lo hi a L) :
    ∃ b, a.uninverted? g = some b ∧ b.Within g (Block lo hi) ∧
      (∀ v ∈ b.accepting, Block lo hi v) ∧ b.language g = L := by
  obtain ⟨b, hb⟩ := Automaton.uninverted_of_deterministic (g := g) h.upright
  have hstart : Block lo hi b.start := by
    rw [Automaton.start_of_uninverted hb]
    exact h.start
  refine ⟨b, hb, ⟨h.region, hstart, Automaton.inverted_of_uninverted hb⟩, fun v hv => ?_,
    (Automaton.language_uninverted hb).trans h.language⟩
  rcases Automaton.accepting_of_uninverted hb hv with hv | hv
  · exact h.accepting v hv
  · exact h.region.of_reaches h.start hv

end Operand

/-- The second builder has one more operand, whose block starts at `lo` and ends with the graph;
the vertices before `lo` are as they were. -/
structure Makes (symbols : List Symbol) (b : Builder) (lo : Nat) (b' : Builder) (a : Automaton)
    (L : Language Symbol) : Prop where
  size : b.graph.size ≤ b'.graph.size
  node : ∀ v < lo, b'.graph.node v = b.graph.node v
  operand : Operand symbols b'.graph lo b'.graph.size a L

namespace Builder

variable {symbols : List Symbol} {b : Builder} {lo mid : Nat} {first second f s : Automaton}
  {L M : Language Symbol}

theorem inside_of_block {g : Graph} {lo hi : Nat} (hw : f.Within g (Block lo hi))
    (ha : ∀ v ∈ f.accepting, Block lo hi v) (h : hi ≤ g.size) : f.Inside g :=
  ⟨hw.start.2.trans_le h, fun v hv => (ha v hv).2.trans_le h⟩

theorem outside_of_le {a : Automaton} {lo hi v : Nat} (ha : ∀ v ∈ a.accepting, Block lo hi v)
    (h : hi ≤ v) : a.Outside (Block lo hi) v := by
  refine ⟨fun hb => ?_, fun hv => ?_⟩
  · have := hb.2
    omega
  · have := (ha v hv).2
    omega

/-- An automaton that accepts in one of two separate blocks does not accept in the other. -/
theorem avoids_block {a : Automaton} {lo hi lo' hi' : Nat}
    (ha : ∀ v ∈ a.accepting, Block lo hi v) (h : hi ≤ lo' ∨ hi' ≤ lo) :
    a.Avoids (Block lo' hi') := by
  rintro v hv ⟨hlo, hhi⟩
  obtain ⟨h1, h2⟩ := ha v hv
  omega

/-! ### Concatenation -/

theorem concatenate_spec (hf : first.uninverted? b.graph = some f)
    (hs : second.uninverted? b.graph = some s) (hfin : f.Inside b.graph)
    (hsin : s.Inside b.graph) :
    ∃ b', b.concatenate? first second = (b', some (.plain f.start s.accepting)) ∧
      b.graph.Adds b'.graph fun x y => x ∈ f.accepting ∧ y = s.start := by
  refine ⟨{ b with graph := b.graph.linkAll f.accepting.toList s.start },
    by simp [concatenate?, hf, hs], ?_⟩
  exact Graph.adds_linkAll hfin.accepting hsin.start

theorem makes_concatenate (hf : Operand symbols b.graph lo mid f L)
    (hs : Operand symbols b.graph mid b.graph.size s M) :
    ∃ b' a, b.concatenate? f s = (b', some a) ∧ Makes symbols b lo b' a (L * M) := by
  obtain ⟨f', hf', hfw, hfa, rfl⟩ := hf.exists_uninverted
  obtain ⟨s', hs', hsw, hsa, rfl⟩ := hs.exists_uninverted
  have hlo : lo ≤ mid := hf.lo_le
  have hmid : mid ≤ b.graph.size := hs.lo_le
  have hregion : b.graph.Region (Block lo b.graph.size) :=
    hf.region.block_append hs.region hlo hmid
  obtain ⟨b', heq, hE⟩ := concatenate_spec hf' hs' (inside_of_block hfw hfa hmid)
    (inside_of_block hsw hsa (le_refl _))
  refine ⟨b', _, heq, hE.size, fun v hv => ?_, ?_⟩
  · refine hE.node v (by omega) fun y hy => ?_
    have := (hfa v hy.1).1
    omega
  · refine .ofPlain (hE.region_block hregion ?_) ?_ ?_ ?_
    · rintro u v ⟨_, rfl⟩
      exact ⟨hlo.trans hsw.start.1, lt_of_lt_of_le hsw.start.2 hE.size⟩
    · exact ⟨hfw.start.1, lt_of_lt_of_le hfw.start.2 (hmid.trans hE.size)⟩
    · intro v hv
      exact ⟨hlo.trans (hsa v hv).1, lt_of_lt_of_le (hsa v hv).2 hE.size⟩
    · exact Automaton.language_concatenate hfw hsw (avoids_block hfa (.inl (le_refl _)))
        (avoids_block hsa (.inr (le_refl _))) hE

/-! ### Union and star -/

/-- The graph with two new vertices, the first of which leads to two given vertices, and with
edges from some vertices to a third and from some to a fourth. -/
def withEnds (g : Graph) (i j : Int) (x y : Nat) (us : List Nat) (u : Nat) (vs : List Nat)
    (v : Nat) : Graph :=
  (((((g.addVertex i).addVertex j).link g.size .empty x).link g.size .empty y).linkAll us
    u).linkAll vs v

theorem size_withEnds (g : Graph) (i j : Int) (x y : Nat) (us : List Nat) (u : Nat)
    (vs : List Nat) (v : Nat) : (withEnds g i j x y us u vs v).size = g.size + 2 := by
  simp [withEnds]

theorem adds_withEnds {g : Graph} {i j : Int} {x y u v : Nat} {us vs : List Nat}
    (hx : x < g.size + 2) (hy : y < g.size + 2) (hus : ∀ t ∈ us, t < g.size) (hu : u < g.size + 2)
    (hvs : ∀ t ∈ vs, t < g.size) (hv : v < g.size + 2) :
    g.Adds (withEnds g i j x y us u vs v) fun p q =>
      (p = g.size ∧ (q = x ∨ q = y)) ∨ (p ∈ us ∧ q = u) ∨ (p ∈ vs ∧ q = v) := by
  set g0 := (g.addVertex i).addVertex j with hg0
  have h0 : g.Adds g0 _ := (Graph.adds_addVertex i).trans (Graph.adds_addVertex j)
  have hsize : g0.size = g.size + 2 := by simp [hg0]
  set g1 := g0.link g.size .empty x with hg1
  have h1 : g0.Adds g1 _ := Graph.adds_link (by omega) (by omega)
  have hsize1 : g1.size = g.size + 2 := by rw [hg1, Graph.size_link, hsize]
  set g2 := g1.link g.size .empty y with hg2
  have h2 : g1.Adds g2 _ := Graph.adds_link (by omega) (by omega)
  have hsize2 : g2.size = g.size + 2 := by rw [hg2, Graph.size_link, hsize1]
  set g3 := g2.linkAll us u with hg3
  have h3 : g2.Adds g3 _ :=
    Graph.adds_linkAll (fun t ht => by have := hus t ht; omega) (by omega)
  have hsize3 : g3.size = g.size + 2 := by rw [hg3, Graph.size_linkAll, hsize2]
  have h4 : g3.Adds (g3.linkAll vs v) _ :=
    Graph.adds_linkAll (fun t ht => by have := hvs t ht; omega) (by omega)
  refine ((((h0.trans h1).trans h2).trans h3).trans h4).congr fun p q => ?_
  simp only [false_or, or_assoc, and_or_left]

theorem bare_size (g : Graph) : g.Bare g.size ∧ g.Bare (g.size + 1) :=
  ⟨Graph.bare_of_size_le (le_refl _), Graph.bare_of_size_le (Nat.le_succ _)⟩

theorem union_spec (hf : first.uninverted? b.graph = some f)
    (hs : second.uninverted? b.graph = some s) (hfin : f.Inside b.graph)
    (hsin : s.Inside b.graph) :
    ∃ b', b.union? first second =
        (b', some (.plain b.graph.size (.singleton (b.graph.size + 1)))) ∧
      b'.graph.size = b.graph.size + 2 ∧
      b.graph.Adds b'.graph (Automaton.UnionEdge f s b.graph.size (b.graph.size + 1)) := by
  have hfs := hfin.start
  have hss := hsin.start
  -- the two new vertices are the last of the graph
  set g := withEnds b.graph b.nextId ((b.nextId + 1 : Nat) : Int) f.start s.start
    f.accepting.toList (b.graph.size + 1) s.accepting.toList (b.graph.size + 1) with hg
  have hadds : b.graph.Adds g _ :=
    adds_withEnds (by omega) (by omega) hfin.accepting (by omega) hsin.accepting (by omega)
  refine ⟨{ b with graph := g, nextId := b.nextId + 1 + 1 }, ?_, size_withEnds .., ?_⟩
  · simp [union?, hf, hs, newVertex, hg, withEnds]
  · refine hadds.congr fun x y => ?_
    rw [Automaton.UnionEdge, or_and_right]
    rfl

theorem makes_union (hf : Operand symbols b.graph lo mid f L)
    (hs : Operand symbols b.graph mid b.graph.size s M) :
    ∃ b' a, b.union? f s = (b', some a) ∧ Makes symbols b lo b' a (L + M) := by
  obtain ⟨f', hf', hfw, hfa, rfl⟩ := hf.exists_uninverted
  obtain ⟨s', hs', hsw, hsa, rfl⟩ := hs.exists_uninverted
  have hlo : lo ≤ mid := hf.lo_le
  have hmid : mid ≤ b.graph.size := hs.lo_le
  have hregion : b.graph.Region (Block lo b.graph.size) :=
    hf.region.block_append hs.region hlo hmid
  have hfs := hfw.start
  have hss := hsw.start
  obtain ⟨b', heq, hsize, hE⟩ := union_spec hf' hs' (inside_of_block hfw hfa hmid)
    (inside_of_block hsw hsa (le_refl _))
  refine ⟨b', _, heq, hE.size, fun v hv => ?_, ?_⟩
  · refine hE.node v (by omega) fun y hy => ?_
    rcases hy with ⟨rfl, _⟩ | ⟨hy | hy, _⟩
    · omega
    · have := (hfa v hy).1
      omega
    · have := (hsa v hy).1
      omega
  · refine .ofPlain (hE.region_block hregion ?_) ⟨by omega, by omega⟩ ?_ ?_
    · rintro u v (⟨_, rfl | rfl⟩ | ⟨_, rfl⟩)
      · exact ⟨hfs.1, by have := hfs.2; omega⟩
      · exact ⟨hlo.trans hss.1, by have := hss.2; omega⟩
      · exact ⟨by omega, by omega⟩
    · intro v hv
      rw [VertexSet.mem_singleton] at hv
      exact ⟨by omega, by omega⟩
    · exact Automaton.language_union hfw hsw (avoids_block hfa (.inl (le_refl _)))
        (avoids_block hsa (.inr (le_refl _))) (bare_size _).1 (bare_size _).2 (by omega)
        (outside_of_le hfa hmid) (outside_of_le hfa (by omega)) (outside_of_le hsa (le_refl _))
        (outside_of_le hsa (by omega)) hE

theorem star_spec (hf : first.uninverted? b.graph = some f) (hfin : f.Inside b.graph) :
    ∃ b', b.star? first = (b', some (.plain b.graph.size (.singleton (b.graph.size + 1)))) ∧
      b'.graph.size = b.graph.size + 2 ∧
      b.graph.Adds b'.graph (Automaton.StarEdge f b.graph.size (b.graph.size + 1)) := by
  have hfs := hfin.start
  set g := withEnds b.graph b.nextId ((b.nextId + 1 : Nat) : Int) f.start (b.graph.size + 1)
    f.accepting.toList f.start f.accepting.toList (b.graph.size + 1) with hg
  have hadds : b.graph.Adds g _ :=
    adds_withEnds (by omega) (by omega) hfin.accepting (by omega) hfin.accepting (by omega)
  refine ⟨{ b with graph := g, nextId := b.nextId + 1 + 1 }, ?_, size_withEnds .., ?_⟩
  · simp [star?, hf, newVertex, hg, withEnds]
  · refine hadds.congr fun x y => ?_
    rw [Automaton.StarEdge, or_and_right, ← and_or_left (a := x ∈ f.accepting.toList)]
    rfl

theorem makes_star (hf : Operand symbols b.graph lo b.graph.size f L) :
    ∃ b' a, b.star? f = (b', some a) ∧ Makes symbols b lo b' a L∗ := by
  obtain ⟨f', hf', hfw, hfa, rfl⟩ := hf.exists_uninverted
  have hlo := hf.lo_le
  have hfs := hfw.start
  obtain ⟨b', heq, hsize, hE⟩ := star_spec hf' (inside_of_block hfw hfa (le_refl _))
  refine ⟨b', _, heq, hE.size, fun v hv => ?_, ?_⟩
  · refine hE.node v (by omega) fun y hy => ?_
    rcases hy with ⟨rfl | hy, _⟩
    · omega
    · have := (hfa v hy).1
      omega
  · refine .ofPlain (hE.region_block hfw.region ?_) ⟨by omega, by omega⟩ ?_ ?_
    · rintro u v ⟨_, rfl | rfl⟩
      · exact ⟨hfs.1, by have := hfs.2; omega⟩
      · exact ⟨by omega, by omega⟩
    · intro v hv
      rw [VertexSet.mem_singleton] at hv
      exact ⟨by omega, by omega⟩
    · exact Automaton.language_star hfw (bare_size _).1 (bare_size _).2 (by omega)
        (outside_of_le hfa (le_refl _)) (outside_of_le hfa (by omega)) hE

/-! ### Atoms -/

theorem makes_atom (symbols : List Symbol) (b : Builder) (a : Atom) :
    Makes symbols b b.graph.size (b.atom a).1 (b.atom a).2 a.language := by
  set n := b.graph.size with hn
  set g0 := (b.graph.addVertex b.nextId).addVertex ((b.nextId + 1 : Nat) : Int) with hg0
  have hsize : g0.size = n + 2 := by simp [hg0, hn]
  have hE : b.graph.Adds g0 _ := (Graph.adds_addVertex _).trans (Graph.adds_addVertex _)
  have hbare : ∀ x, n ≤ x → g0.Bare x := fun x hx =>
    (Graph.bare_of_size_le hx).adds hE (by simp)
  set g := g0.link n a (n + 1) with hg
  have hgsize : g.size = n + 2 := by rw [hg, Graph.size_link, hsize]
  have honly : g.OnlyEdge n a (n + 1) :=
    Graph.onlyEdge_link (by omega) (by omega) (by omega) (hbare n (le_refl _))
      (hbare (n + 1) (by omega))
  have hgraph : (b.atom a).1.graph = g := by simp [atom, newVertex, hg, hg0, hn]
  have hresult : (b.atom a).2 = .plain n (.singleton (n + 1)) := by simp [atom, newVertex, hn]
  rw [hresult]
  refine ⟨by rw [hgraph]; omega, fun v hv => ?_, ?_⟩
  · rw [hgraph, hg, Graph.node_link a (by omega) (by omega), if_neg (by omega)]
    exact hE.node v hv (by simp)
  · rw [hgraph]
    refine .ofPlain (fun u hu v hv => ?_) ⟨le_refl _, by omega⟩ (fun v hv => ?_)
      (Automaton.language_onlyEdge honly (by omega))
    · have hu : u = n ∨ u = n + 1 := by
        obtain ⟨h1, h2⟩ := hu
        omega
      rcases honly.region u hu v hv with rfl | rfl
      · exact ⟨le_refl _, by omega⟩
      · exact ⟨by omega, by omega⟩
    · rw [VertexSet.mem_singleton] at hv
      exact ⟨by omega, by omega⟩

/-! ### The complement -/

theorem makes_complement (hf : Operand symbols b.graph lo b.graph.size f L) :
    Makes symbols b lo (b.complement symbols f).1 (b.complement symbols f).2
      (complementIn symbols L) := by
  unfold complement
  by_cases hd : f.deterministic = true
  · rw [if_pos hd]
    refine ⟨le_refl _, fun _ _ => rfl, ?_⟩
    have htotal := hf.total hd
    exact
      { region := hf.region
        start := hf.start
        accepting := hf.accepting
        language := by
          rw [← hf.language]
          exact htotal.language_invert
        total := fun _ => htotal.invert
        upright := fun _ => hd }
  · rw [if_neg hd]
    have h := determinizes_subsetComplement b symbols f
    have hlo : lo ≤ b.graph.size := hf.lo_le
    refine ⟨h.size.le, fun v hv => h.node v (by omega), ?_⟩
    -- the operand's own vertices stay in the block, though nothing leads to them any more
    have hold : (b.subsetComplement symbols f).1.graph.Region (Block lo b.graph.size) :=
      hf.region.congr fun v hv => h.node v hv.2
    exact
      { region := hold.block_append h.region hlo h.size.le
        start := by
          rw [h.start]
          exact ⟨hlo, h.size⟩
        accepting := fun v hv => ⟨hlo.trans (h.accepting v hv).1, (h.accepting v hv).2⟩
        language := by rw [h.language, hf.language]
        total := fun _ => h.total
        upright := fun _ => h.deterministic }

end Builder

end RegexAutomata
