/-
The subset construction and the complement.

The construction finds a list of sets that holds the initial one and is closed under reading
symbols (`Subset.explore_spec`), and makes the i-th set found into the vertex `base + i`.  The
new graph follows the old one step by step: the path from the vertex of a set that spells `w`
ends at the vertex of the set that reading `w` leads to (`Subset.Follows.path_iff`).  The empty
set is a vertex like the others.

* `Automaton.TotalOver` — an automaton that each sequence of some symbols leads to exactly one
  vertex, and other sequences nowhere;
* `Builder.determinizes_subsetComplement` — the complement is such an automaton, for the
  sequences of the symbols that the operand rejects;
* `Automaton.TotalOver.language_invert` — if the operand is one already, inverting it is enough.
-/
import RegexAutomata.Automaton.Subset
import RegexAutomata.Proofs.Automaton.Edit

namespace RegexAutomata

/-- All symbols of the sequence are among the given ones. -/
def Over (symbols : List Symbol) (w : List Symbol) : Prop := ∀ s ∈ w, s ∈ symbols

/-- The sequences of some symbols that are not in a language. -/
def complementIn (symbols : List Symbol) (L : Language Symbol) : Language Symbol :=
  {w | Over symbols w ∧ w ∉ L}

theorem mem_complementIn {symbols : List Symbol} {L : Language Symbol} {w : List Symbol} :
    w ∈ complementIn symbols L ↔ Over symbols w ∧ w ∉ L := Iff.rfl

/-- The symbols that the engine can see are those of the alphabet and the reserved
characters. -/
theorem Alphabet.mem_operating {a : Alphabet} {s : Symbol} :
    s ∈ a.operating ↔ s ∈ a.symbols ∨ s ∈ reservedSymbols := by
  rw [operating, List.mem_eraseDups, List.mem_mergeSort, List.mem_append]

theorem over_cons {symbols : List Symbol} {s : Symbol} {w : List Symbol} :
    Over symbols (s :: w) ↔ s ∈ symbols ∧ Over symbols w :=
  List.forall_mem_cons

theorem over_singleton {symbols : List Symbol} {s : Symbol} : Over symbols [s] ↔ s ∈ symbols :=
  List.forall_mem_singleton

/-! ### Exploring -/

namespace Subset

variable {g : Graph} {symbols : List Symbol}

theorem mem_or_mem_newcomers {found ss : List VertexSet} {s : VertexSet} (h : s ∈ ss) :
    s ∈ found ∨ s ∈ newcomers found ss := by
  fun_induction newcomers found ss with
  | case1 => simp at h
  | case2 found t ss ht ih =>
    rcases List.mem_cons.1 h with rfl | h
    · exact .inl (by simpa using ht)
    · exact ih h
  | case3 found t ss ht ih =>
    rcases List.mem_cons.1 h with rfl | h
    · exact .inr (.head _)
    · rcases ih h with h | h
      · rcases List.mem_cons.1 h with rfl | h
        · exact .inr (.head _)
        · exact .inl h
      · exact .inr (.tail _ h)

/-- What holds while sets are looked for: each set found waits to be examined or has a row,
which says where each symbol leads, and leads to sets that were found. -/
structure Exploring (g : Graph) (symbols : List Symbol) (found : List VertexSet)
    (rows : List Row) (pending : List VertexSet) : Prop where
  examined : ∀ s ∈ found, s ∈ pending ∨ ∃ r ∈ rows, r.1 = s
  row : ∀ r ∈ rows, r.1 ∈ found ∧ r.2 = successors g symbols r.1 ∧ ∀ t ∈ r.2, t ∈ found
  waiting : ∀ s ∈ pending, s ∈ found

theorem Exploring.next {found : List VertexSet} {rows : List Row} {src : VertexSet}
    {pending : List VertexSet} (h : Exploring g symbols found rows (src :: pending)) :
    Exploring g symbols (found ++ newcomers found (successors g symbols src))
      ((src, successors g symbols src) :: rows)
      ((newcomers found (successors g symbols src)).reverse ++ pending) where
  examined := by
    intro s hs
    rcases List.mem_append.1 hs with hs | hs
    · rcases h.examined s hs with hp | ⟨r, hr, rfl⟩
      · rcases List.mem_cons.1 hp with rfl | hp
        · exact .inr ⟨_, .head _, rfl⟩
        · exact .inl (List.mem_append.2 (.inr hp))
      · exact .inr ⟨r, .tail _ hr, rfl⟩
    · exact .inl (List.mem_append.2 (.inl (List.mem_reverse.2 hs)))
  row := by
    intro r hr
    rcases List.mem_cons.1 hr with rfl | hr
    · refine ⟨List.mem_append.2 (.inl (h.waiting src (.head _))), rfl, fun t ht => ?_⟩
      exact List.mem_append.2 (mem_or_mem_newcomers ht)
    · obtain ⟨h1, h2, h3⟩ := h.row r hr
      exact ⟨List.mem_append.2 (.inl h1), h2, fun t ht => List.mem_append.2 (.inl (h3 t ht))⟩
  waiting := by
    intro s hs
    rcases List.mem_append.1 hs with hs | hs
    · exact List.mem_append.2 (.inr (List.mem_reverse.1 hs))
    · exact List.mem_append.2 (.inl (h.waiting s (.tail _ hs)))

/-- In the end nothing waits; what was found first stays first. -/
theorem explore_spec {found : List VertexSet} {rows : List Row} {pending : List VertexSet}
    (h : Exploring g symbols found rows pending) :
    Exploring g symbols (explore g symbols found rows pending).1
        (explore g symbols found rows pending).2 [] ∧
      found <+: (explore g symbols found rows pending).1 := by
  fun_induction explore g symbols found rows pending with
  | case1 found rows => exact ⟨h, List.prefix_refl _⟩
  | case2 found rows src pending dests fresh ih =>
    obtain ⟨h1, h2⟩ := ih h.next
    exact ⟨h1, (List.prefix_append _ _).trans h2⟩

end Subset

/-! ### The graph of the sets found -/

namespace Graph

variable {g g' g'' : Graph} {R R' : Nat → Symbol → Nat → Prop}

/-- The second graph has the vertices and edges of the first, and besides them edges that
consume a symbol, from `u` to `v` on `s` if `R u s v`. -/
structure AddsReading (g g' : Graph) (R : Nat → Symbol → Nat → Prop) : Prop where
  size : g'.size = g.size
  node : ∀ u, (∀ s v, ¬ R u s v) → g'.node u = g.node u
  eps : ∀ u, (g'.node u).eps = (g.node u).eps
  step : ∀ u s v, v ∈ (g'.node u).step s ↔ v ∈ (g.node u).step s ∨ R u s v

theorem addsReading_link {u v : Nat} {s : Symbol} (hu : u < g.size) (hv : v < g.size) :
    g.AddsReading (g.link u (.one s) v) (fun x t y => x = u ∧ t = s ∧ y = v) where
  size := by simp
  node := by
    intro x hn
    rw [node_link _ hv hu, if_neg fun h => hn s v ⟨h, rfl, rfl⟩]
  eps := by
    intro x
    rw [node_link _ hv hu]
    split
    · subst_vars
      rfl
    · rfl
  step := by
    intro x t y
    rw [node_link _ hv hu]
    by_cases h : x = u
    · subst h
      simp only [if_true, Node.link, Node.mem_step, List.mem_insert_iff, Prod.mk.injEq, true_and]
      tauto
    · simp [h]

/-- Edges that are added for one member of a list after the other. -/
theorem addsReading_foldl {α : Type} {f : Graph → α → Graph}
    {R : α → Nat → Symbol → Nat → Prop} {l : List α} {n : Nat}
    (hf : ∀ a ∈ l, ∀ g : Graph, g.size = n → g.AddsReading (f g a) (R a)) (hg : g.size = n) :
    g.AddsReading (l.foldl f g) (fun u s v => ∃ a ∈ l, R a u s v) := by
  induction l generalizing g with
  | nil => exact ⟨rfl, fun _ _ => rfl, fun _ => rfl, by simp⟩
  | cons a l ih =>
    have h1 : g.AddsReading (f g a) (R a) := hf a (.head _) g hg
    have h2 := ih (fun b hb => hf b (.tail _ hb)) (h1.size.trans hg)
    refine ⟨h2.size.trans h1.size, fun u hu => ?_, fun u => (h2.eps u).trans (h1.eps u),
      fun u s v => ?_⟩
    · rw [List.foldl_cons, h2.node u fun s v ⟨b, hb, h⟩ => hu s v ⟨b, .tail _ hb, h⟩]
      exact h1.node u fun s v h => hu s v ⟨a, .head _, h⟩
    · rw [List.foldl_cons, h2.step, h1.step, or_assoc]
      simp

end Graph

namespace Subset

variable {g : Graph} {symbols : List Symbol} {found : List VertexSet}

theorem size_addVertices (g : Graph) (subsets n : Nat) :
    (addVertices g subsets n).size = g.size + n := by
  induction n generalizing g subsets with
  | zero => rfl
  | succ n ih =>
    rw [addVertices, ih, Graph.size_addVertex]
    omega

theorem adds_addVertices (g : Graph) (subsets n : Nat) :
    g.Adds (addVertices g subsets n) (fun _ _ => False) := by
  induction n generalizing g subsets with
  | zero => exact ⟨le_refl _, fun _ _ _ => rfl, by simp [addVertices], fun _ _ => rfl⟩
  | succ n ih => exact ((Graph.adds_addVertex _).trans (ih _ _)).congr fun _ _ => by simp

theorem addsReading_linkRow {base n : Nat} {src : VertexSet} (hn : base + found.length ≤ n)
    (hsrc : src ∈ found) (hdests : ∀ s ∈ symbols, g.advance src s ∈ found) (k : Graph)
    (hk : k.size = n) :
    k.AddsReading (linkRow symbols base found k (src, successors g symbols src))
      (fun u s v => ∃ t ∈ symbols,
        u = base + found.idxOf src ∧ s = t ∧ v = base + found.idxOf (g.advance src t)) := by
  have hlt : ∀ t ∈ found, base + found.idxOf t < n := by
    intro t ht
    have := List.idxOf_lt_length_of_mem ht
    omega
  have hzip : symbols.zip (successors g symbols src) =
      symbols.map fun s => (s, g.advance src s) :=
    List.map_prod_left_eq_zip.symm
  simp only [linkRow, hzip, List.foldl_map]
  refine Graph.addsReading_foldl (fun t ht k hk => ?_) hk
  exact Graph.addsReading_link (hk ▸ hlt src hsrc) (hk ▸ hlt _ (hdests t ht))

/-- The vertices of the sets that were found follow the sets: nothing can be reached without
reading, and reading a symbol leads to the vertex of the set that the symbol leads to. -/
structure Follows (g : Graph) (symbols : List Symbol) (found : List VertexSet) (base : Nat)
    (g' : Graph) : Prop where
  closed : ∀ src ∈ found, ∀ s ∈ symbols, g.advance src s ∈ found
  eps : ∀ src ∈ found, ∀ v, v ∉ (g'.node (base + found.idxOf src)).eps
  step : ∀ src ∈ found, ∀ s v, v ∈ (g'.node (base + found.idxOf src)).step s ↔
    s ∈ symbols ∧ v = base + found.idxOf (g.advance src s)
  inside : ∀ u, base ≤ u → ∀ v ∈ (g'.node u).targets, base ≤ v ∧ v < base + found.length

section

variable {rows : List Row} {k : Graph} {base : Nat}

theorem Exploring.exists_row (h : Exploring g symbols found rows []) {src : VertexSet}
    (hsrc : src ∈ found) : (src, successors g symbols src) ∈ rows := by
  obtain ⟨r, hr, rfl⟩ := (h.examined src hsrc).resolve_left (by simp)
  have heq : r = (r.1, successors g symbols r.1) := Prod.ext rfl (h.row r hr).2.1
  exact heq ▸ hr

theorem Exploring.closed (h : Exploring g symbols found rows []) {src : VertexSet}
    (hsrc : src ∈ found) {s : Symbol} (hs : s ∈ symbols) : g.advance src s ∈ found :=
  (h.row _ (h.exists_row hsrc)).2.2 _ (List.mem_map.2 ⟨s, hs, rfl⟩)

/-- Each row adds the edges of its own set. -/
theorem Exploring.addsReading (h : Exploring g symbols found rows [])
    (hsize : k.size = base + found.length) :
    k.AddsReading (rows.foldl (linkRow symbols base found) k) fun u s v =>
      ∃ r ∈ rows, ∃ t ∈ symbols,
        u = base + found.idxOf r.1 ∧ s = t ∧ v = base + found.idxOf (g.advance r.1 t) := by
  refine Graph.addsReading_foldl (fun r hr k' hk' => ?_) hsize
  obtain ⟨h1, h2, _⟩ := h.row r hr
  have heq : r = (r.1, successors g symbols r.1) := Prod.ext rfl h2
  rw [heq]
  exact addsReading_linkRow (le_refl _) h1 (fun s hs => h.closed h1 hs) k' hk'

theorem Exploring.follows (h : Exploring g symbols found rows [])
    (hbare : ∀ v, base ≤ v → k.Bare v) (hsize : k.size = base + found.length) :
    Follows g symbols found base (rows.foldl (linkRow symbols base found) k) ∧
      (rows.foldl (linkRow symbols base found) k).size = k.size ∧
      ∀ v < base, (rows.foldl (linkRow symbols base found) k).node v = k.node v := by
  have hadds := h.addsReading (k := k) hsize
  refine ⟨⟨fun src hsrc s hs => h.closed hsrc hs, fun src _ v => ?_, fun src hsrc s v => ?_,
    fun u hu v hv => ?_⟩, hadds.size, fun v hv => ?_⟩
  · rw [hadds.eps]
    exact (hbare _ (Nat.le_add_right _ _) v).1
  · rw [hadds.step]
    constructor
    · rintro (hv | ⟨r, hr, t, ht, hu, rfl, rfl⟩)
      · exact absurd hv ((hbare _ (Nat.le_add_right _ _) v).2 s)
      · have hidx : src = r.1 := List.idxOf_inj hsrc |>.1 (Nat.add_left_cancel hu)
        exact ⟨ht, by rw [hidx]⟩
    · rintro ⟨hs, rfl⟩
      exact .inr ⟨_, h.exists_row hsrc, s, hs, rfl, rfl, rfl⟩
  · -- only the rows have put edges on the new vertices
    rcases Node.mem_targets_iff_step.1 hv with hv | ⟨s, hv⟩
    · rw [hadds.eps] at hv
      exact absurd hv (hbare u hu v).1
    · rcases (hadds.step u s v).1 hv with hv | ⟨r, hr, t, ht, _, _, rfl⟩
      · exact absurd hv ((hbare u hu v).2 s)
      · have hlt := List.idxOf_lt_length_of_mem (h.closed (h.row r hr).1 ht)
        exact ⟨Nat.le_add_right _ _, Nat.add_lt_add_left hlt _⟩
  · refine hadds.node v fun s x hx => ?_
    obtain ⟨r, _, t, _, hv', _⟩ := hx
    omega

end

theorem Follows.frontier_mem {base : Nat} {g' : Graph} (h : Follows g symbols found base g')
    {src : VertexSet} (hsrc : src ∈ found) {w : List Symbol} (hw : Over symbols w) :
    g.frontier src w ∈ found := by
  induction w generalizing src with
  | nil => exact hsrc
  | cons s w ih =>
    obtain ⟨hs, hw⟩ := over_cons.1 hw
    exact ih (h.closed src hsrc s hs) hw

/-- The path that spells `w` ends at the vertex of the set that reading `w` leads to. -/
theorem Follows.path_iff {base : Nat} {g' : Graph} (h : Follows g symbols found base g')
    {src : VertexSet} (hsrc : src ∈ found) {w : List Symbol} {v : Nat} :
    g'.Path (base + found.idxOf src) w v ↔
      Over symbols w ∧ v = base + found.idxOf (g.frontier src w) := by
  have hnil : ∀ src ∈ found, ∀ v,
      g'.Path (base + found.idxOf src) [] v ↔ v = base + found.idxOf src := by
    intro src hsrc v
    constructor
    · intro hp
      cases hp with
      | nil => rfl
      | eps he _ => exact absurd he (h.eps src hsrc _)
    · rintro rfl
      exact .nil _
  induction w generalizing src with
  | nil =>
    rw [hnil src hsrc]
    simp [Over, Graph.frontier]
  | cons s w ih =>
    rw [Graph.path_cons_iff, over_cons]
    constructor
    · rintro ⟨t, x, ht, hx, hp⟩
      obtain rfl := (hnil src hsrc t).1 ht
      obtain ⟨hs, rfl⟩ := (h.step src hsrc s x).1 hx
      obtain ⟨hw, rfl⟩ := (ih (h.closed src hsrc s hs)).1 hp
      exact ⟨⟨hs, hw⟩, rfl⟩
    · rintro ⟨⟨hs, hw⟩, rfl⟩
      exact ⟨_, _, .nil _, (h.step src hsrc s _).2 ⟨hs, rfl⟩,
        (ih (h.closed src hsrc s hs)).2 ⟨hw, rfl⟩⟩

end Subset

/-! ### The complement -/

namespace Automaton

/-- The sequences of some symbols lead to exactly one vertex each, and other sequences lead
nowhere. -/
structure TotalOver (a : Automaton) (g : Graph) (symbols : List Symbol) : Prop where
  total : ∀ w, Over symbols w → ∃ v, g.Path a.start w v
  unique : ∀ w u v, g.Path a.start w u → g.Path a.start w v → u = v
  onlyOver : ∀ w v, g.Path a.start w v → Over symbols w

/-- The automaton in which accepting vertices and the others have changed places. -/
def invert (a : Automaton) : Automaton := { a with inverted := !a.inverted }

variable {a : Automaton} {g g' : Graph} {symbols : List Symbol}

theorem TotalOver.invert (h : a.TotalOver g symbols) : a.invert.TotalOver g symbols :=
  ⟨h.total, h.unique, h.onlyOver⟩

theorem TotalOver.congr {F : Nat → Prop} (h : a.TotalOver g symbols) (hF : g.Region F)
    (hagree : ∀ x, F x → g'.node x = g.node x) (ha : F a.start) : a.TotalOver g' symbols := by
  have hp : ∀ {w v}, g'.Path a.start w v ↔ g.Path a.start w v := Graph.path_congr hF hagree ha
  refine ⟨fun w hw => ?_, fun w u v hu hv => ?_, fun w v hv => ?_⟩
  · obtain ⟨v, hv⟩ := h.total w hw
    exact ⟨v, hp.2 hv⟩
  · exact h.unique w u v (hp.1 hu) (hp.1 hv)
  · exact h.onlyOver w v (hp.1 hv)

theorem final_invert {v : Nat} : a.invert.Final v ↔ ¬ a.Final v := by
  unfold Final invert
  cases a.inverted <;> simp

/-- Each sequence of the symbols leads to one vertex, where just one of the two automata
accepts. -/
theorem TotalOver.language_invert (h : a.TotalOver g symbols) :
    a.invert.language g = complementIn symbols (a.language g) := by
  ext w
  rw [mem_complementIn, mem_language, mem_language]
  constructor
  · rintro ⟨v, hp, hv⟩
    refine ⟨h.onlyOver w v hp, ?_⟩
    rintro ⟨u, hq, hu⟩
    rw [h.unique w u v hq hp] at hu
    exact final_invert.1 hv hu
  · rintro ⟨hw, hn⟩
    obtain ⟨v, hp⟩ := h.total w hw
    exact ⟨v, hp, final_invert.2 fun hv => hn ⟨v, hp, hv⟩⟩

end Automaton

namespace Subset

variable {g g' : Graph} {symbols : List Symbol} {found : List VertexSet} {base : Nat}
  {a d : Automaton}

/-- In the end nothing waits, and the set that the search started with comes first. -/
theorem explore_initial (g : Graph) (symbols : List Symbol) (s : VertexSet) :
    Exploring g symbols (explore g symbols [s] [] [s]).1 (explore g symbols [s] [] [s]).2 [] ∧
      ∃ rest, (explore g symbols [s] [] [s]).1 = s :: rest := by
  have hstart : Exploring g symbols [s] [] [s] := ⟨fun t ht => .inl ht, by simp, fun t ht => ht⟩
  obtain ⟨hend, rest, hrest⟩ := explore_spec hstart
  exact ⟨hend, rest, hrest.symm⟩

theorem Follows.totalOver (h : Follows g symbols found base g') {src : VertexSet}
    (hsrc : src ∈ found) (hd : d.start = base + found.idxOf src) : d.TotalOver g' symbols := by
  have hpath : ∀ w v, g'.Path d.start w v ↔
      Over symbols w ∧ v = base + found.idxOf (g.frontier src w) := by
    intro w v
    rw [hd]
    exact h.path_iff hsrc
  refine ⟨fun w hw => ⟨_, (hpath w _).2 ⟨hw, rfl⟩⟩, fun w u v hu hv => ?_, fun w v hv => ?_⟩
  · rw [((hpath w u).1 hu).2, ((hpath w v).1 hv).2]
  · exact ((hpath w v).1 hv).1

theorem Follows.language (h : Follows g symbols found base g') (hsrc : a.initial g ∈ found)
    (hd : d.start = base + found.idxOf (a.initial g))
    (hfinal : ∀ s ∈ found, d.Final (base + found.idxOf s) ↔ ¬ a.isFinal s = true) :
    d.language g' = complementIn symbols (a.language g) := by
  ext w
  rw [Automaton.mem_language, mem_complementIn, ← Automaton.accepts_iff, Automaton.accepts,
    Automaton.acceptsFrom_eq, hd]
  constructor
  · rintro ⟨v, hp, hv⟩
    obtain ⟨hw, rfl⟩ := (h.path_iff hsrc).1 hp
    exact ⟨hw, (hfinal _ (h.frontier_mem hsrc hw)).1 hv⟩
  · rintro ⟨hw, hn⟩
    have hfrontier := h.frontier_mem hsrc hw
    exact ⟨_, (h.path_iff hsrc).2 ⟨hw, rfl⟩, (hfinal _ hfrontier).2 hn⟩

/-- The vertices that accept are those of the sets in which the automaton does not. -/
theorem mem_accepting {s : VertexSet} (hs : s ∈ found) :
    base + found.idxOf s ∈ VertexSet.ofList (((List.range found.length).filter fun i =>
      (found[i]?.map fun s => !a.isFinal s).getD false).map (base + ·)) ↔
        ¬ a.isFinal s = true := by
  have hlt : found.idxOf s < found.length := List.idxOf_lt_length_of_mem hs
  simp [hlt]

end Subset

namespace Builder

/-- The new vertices follow the sets that are found, and the old ones are as they were. -/
theorem follows_subsetComplement (b : Builder) (symbols : List Symbol) (a : Automaton) :
    let initial := a.initial b.graph
    let found := (Subset.explore b.graph symbols [initial] [] [initial]).1
    let b' := (b.subsetComplement symbols a).1
    Subset.Follows b.graph symbols found b.graph.size b'.graph ∧
      b'.graph.size = b.graph.size + found.length ∧
      ∀ v < b.graph.size, b'.graph.node v = b.graph.node v := by
  intro initial found b'
  set blank := Subset.addVertices b.graph b.subsets found.length with hblank
  have hexplored := (Subset.explore_initial b.graph symbols initial).1
  have hsize : blank.size = b.graph.size + found.length := Subset.size_addVertices _ _ _
  have hadds : b.graph.Adds blank (fun _ _ => False) := Subset.adds_addVertices _ _ _
  have hbare : ∀ v, b.graph.size ≤ v → blank.Bare v := fun v hv =>
    (Graph.bare_of_size_le hv).adds hadds fun _ h => h
  obtain ⟨hfollows, hsame, hnode⟩ := hexplored.follows hbare hsize
  refine ⟨hfollows, hsame.trans hsize, fun v hv => ?_⟩
  exact (hnode v hv).trans (hadds.node v hv fun _ h => h)

/-- The set that the search starts with is found first. -/
theorem initial_found (b : Builder) (symbols : List Symbol) (a : Automaton) :
    let initial := a.initial b.graph
    let found := (Subset.explore b.graph symbols [initial] [] [initial]).1
    initial ∈ found ∧ b.graph.size = b.graph.size + found.idxOf initial := by
  intro initial found
  obtain ⟨_, rest, hrest⟩ := Subset.explore_initial b.graph symbols initial
  have hfound : found = initial :: rest := hrest
  rw [hfound]
  exact ⟨.head _, by rw [List.idxOf_cons_self, Nat.add_zero]⟩

/-- What the subset construction makes: vertices behind the old ones, and on them an automaton
that reads the symbols and accepts what the operand rejects. -/
structure Determinizes (b : Builder) (symbols : List Symbol) (a : Automaton) (b' : Builder)
    (d : Automaton) : Prop where
  size : b.graph.size < b'.graph.size
  node : ∀ v < b.graph.size, b'.graph.node v = b.graph.node v
  region : b'.graph.Region (Graph.Block b.graph.size b'.graph.size)
  start : d.start = b.graph.size
  accepting : ∀ v ∈ d.accepting, Graph.Block b.graph.size b'.graph.size v
  deterministic : d.deterministic = true
  total : d.TotalOver b'.graph symbols
  language : d.language b'.graph = complementIn symbols (a.language b.graph)

theorem determinizes_subsetComplement (b : Builder) (symbols : List Symbol) (a : Automaton) :
    b.Determinizes symbols a (b.subsetComplement symbols a).1
      (b.subsetComplement symbols a).2 := by
  obtain ⟨hfollows, hsize, hnode⟩ := b.follows_subsetComplement symbols a
  obtain ⟨hmem, hstart⟩ := b.initial_found symbols a
  set b' := (b.subsetComplement symbols a).1 with hb'
  set d := (b.subsetComplement symbols a).2 with hd
  set found :=
    (Subset.explore b.graph symbols [a.initial b.graph] [] [a.initial b.graph]).1 with hfound
  have hlength : 0 < found.length := List.length_pos_of_mem hmem
  have hfinal : ∀ s ∈ found, d.Final (b.graph.size + found.idxOf s) ↔ ¬ a.isFinal s = true := by
    intro s hs
    have hinverted : d.inverted = false := rfl
    exact (iff_true_right hinverted).trans (Subset.mem_accepting hs)
  refine ⟨by omega, hnode, ?_, rfl, fun v hv => ?_, rfl, hfollows.totalOver hmem hstart,
    hfollows.language hmem hstart hfinal⟩
  · rw [hsize]
    exact fun u hu v hv => hfollows.inside u hu.1 v hv
  · obtain ⟨i, hi, rfl⟩ := List.mem_map.1 (VertexSet.mem_ofList.1 hv)
    have hlt : i < found.length := List.mem_range.1 (List.mem_filter.1 hi).1
    exact ⟨Nat.le_add_right _ _, by omega⟩

end Builder

end RegexAutomata
