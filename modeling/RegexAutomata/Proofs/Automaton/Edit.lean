/-
What changing a graph does to its edges and paths.

`Graph.Adds g g' E` says that `g'` has the edges of `g` and besides them edges that consume
nothing, those that the relation `E` holds for.  All operators on automata change the graph in
this way, and `Adds.trans` puts their steps together.

A `Region` is a property of vertices that no edge leads away from.

* `Graph.path_congr` — paths that start in a region only depend on the nodes of the region;
* `Automaton.language_congr` — and so does the language of an automaton that starts there;
* `Graph.Path.escape` — a path in the larger graph that starts in a region stays there, or
  leaves it by one of the edges that were added.

A graph that only gets more vertices `Grows`; paths from the old vertices stay as they are.
-/
import RegexAutomata.Automaton.Fragment
import RegexAutomata.Proofs.Automaton.Path

namespace RegexAutomata

theorem Node.mem_targets_iff_step {n : Node} {v : Nat} :
    v ∈ n.targets ↔ v ∈ n.eps ∨ ∃ s, v ∈ n.step s := by
  simp only [Node.mem_targets, Node.mem_step]
  constructor
  · rintro (h | h | ⟨s, h⟩)
    · exact .inl h
    · exact .inr ⟨"", .inr h⟩
    · exact .inr ⟨s, .inl h⟩
  · rintro (h | ⟨s, h | h⟩)
    · exact .inl h
    · exact .inr (.inr ⟨s, h⟩)
    · exact .inr (.inl h)

namespace Graph

variable {g g' g'' : Graph}

/-! ### Single changes -/

theorem node_eq (g : Graph) (v : Nat) : g.node v = (g.nodes[v]?).getD (.bare 0) :=
  Array.getD_eq_getD_getElem?

@[simp] theorem size_addVertex (id : Int) : (g.addVertex id).size = g.size + 1 := by
  simp [addVertex, size]

theorem node_addVertex (id : Int) (v : Nat) :
    (g.addVertex id).node v = if v = g.size then .bare id else g.node v := by
  by_cases h : v = g.size
  · rw [if_pos h, node_eq, addVertex, h]
    simp [size]
  · rw [if_neg h, node_eq, node_eq, addVertex, Array.getElem?_push,
      if_neg (show v ≠ g.nodes.size from h)]

@[simp] theorem size_link (u v : Nat) (a : Atom) : (g.link u a v).size = g.size := by
  unfold link
  split
  · simp [size]
  · rfl

theorem node_link {u v : Nat} (a : Atom) (hv : v < g.size) (hu : u < g.size) (x : Nat) :
    (g.link u a v).node x = if x = u then (g.node u).link a v else g.node x := by
  unfold link
  rw [dif_pos hv, node_eq]
  simp only [Array.getElem?_modify]
  by_cases h : u = x
  · subst h
    have hu : u < g.nodes.size := hu
    simp [node_eq, Array.getElem?_eq_getElem hu]
  · simp [h, Ne.symm h, node_eq]

/-! ### Numbers -/

theorem id_addVertex (i : Int) (v : Nat) :
    (g.addVertex i).id v = if v = g.size then i else g.id v := by
  unfold id
  rw [node_addVertex]
  split <;> rfl

/-- An edge does not change the number of any vertex. -/
@[simp] theorem id_link (u : Nat) (a : Atom) (v x : Nat) : (g.link u a v).id x = g.id x := by
  unfold link id
  split
  · rw [node_eq, node_eq]
    simp only [Array.getElem?_modify]
    by_cases h : u = x
    · rw [if_pos h]
      cases g.nodes[x]? with
      | none => rfl
      | some n => cases a <;> rfl
    · rw [if_neg h]
  · rfl

@[simp] theorem id_linkAll (us : List Nat) (v x : Nat) : (g.linkAll us v).id x = g.id x := by
  unfold linkAll
  induction us generalizing g with
  | nil => rfl
  | cons u us ih => rw [List.foldl_cons, ih, id_link]

/-! ### Edges that consume nothing -/

/-- The second graph has the vertices and edges of the first, and besides them edges that
consume nothing, from `u` to `v` if `E u v`. -/
structure Adds (g g' : Graph) (E : Nat → Nat → Prop) : Prop where
  size : g.size ≤ g'.size
  node : ∀ u < g.size, (∀ v, ¬ E u v) → g'.node u = g.node u
  eps : ∀ u v, v ∈ (g'.node u).eps ↔ v ∈ (g.node u).eps ∨ E u v
  step : ∀ u s, (g'.node u).step s = (g.node u).step s

variable {E E' : Nat → Nat → Prop}

theorem Adds.trans (h : g.Adds g' E) (h' : g'.Adds g'' E') :
    g.Adds g'' (fun u v => E u v ∨ E' u v) where
  size := h.size.trans h'.size
  node := by
    intro u hu hE
    have h1 := h'.node u (lt_of_lt_of_le hu h.size) fun v hv => hE v (.inr hv)
    rw [h1, h.node u hu fun v hv => hE v (.inl hv)]
  eps := by
    intro u v
    rw [h'.eps, h.eps, or_assoc]
  step := by
    intro u s
    rw [h'.step, h.step]

theorem Adds.congr (h : g.Adds g' E) (hE : ∀ u v, E u v ↔ E' u v) : g.Adds g' E' where
  size := h.size
  node := by
    intro u hu hn
    exact h.node u hu fun v hv => hn v ((hE u v).1 hv)
  eps := by
    intro u v
    rw [h.eps, hE]
  step := h.step

theorem adds_addVertex (id : Int) : g.Adds (g.addVertex id) (fun _ _ => False) where
  size := by simp
  node := by
    intro u hu _
    rw [node_addVertex, if_neg (by omega)]
  eps := by
    intro u v
    rw [node_addVertex, or_false]
    split
    · subst_vars
      simp [node_eq, Graph.size, Node.bare]
    · rfl
  step := by
    intro u s
    rw [node_addVertex]
    split
    · subst_vars
      simp [node_eq, Graph.size, Node.bare, Node.step]
    · rfl

theorem adds_link {u v : Nat} (hu : u < g.size) (hv : v < g.size) :
    g.Adds (g.link u .empty v) (fun x y => x = u ∧ y = v) where
  size := by simp
  node := by
    intro x _ hn
    rw [node_link .empty hv hu, if_neg fun h => hn v ⟨h, rfl⟩]
  eps := by
    intro x y
    rw [node_link .empty hv hu]
    by_cases h : x = u
    · subst h
      simp [Node.link, or_comm]
    · simp [h]
  step := by
    intro x s
    rw [node_link .empty hv hu]
    split
    · subst_vars
      rfl
    · rfl

@[simp] theorem size_linkAll (us : List Nat) (v : Nat) : (g.linkAll us v).size = g.size := by
  unfold linkAll
  induction us generalizing g with
  | nil => rfl
  | cons u us ih => rw [List.foldl_cons, ih, size_link]

theorem adds_linkAll {us : List Nat} {v : Nat} (hus : ∀ u ∈ us, u < g.size) (hv : v < g.size) :
    g.Adds (g.linkAll us v) (fun x y => x ∈ us ∧ y = v) := by
  induction us generalizing g with
  | nil => exact ⟨le_refl _, fun _ _ _ => rfl, by simp [linkAll], fun _ _ => rfl⟩
  | cons u us ih =>
    have h1 : g.Adds (g.link u .empty v) _ := adds_link (hus u (.head _)) hv
    have h2 : (g.link u .empty v).Adds ((g.link u .empty v).linkAll us v) _ :=
      ih (fun x hx => by simpa using hus x (.tail _ hx)) (by simpa using hv)
    refine (h1.trans h2).congr fun x y => ?_
    rw [List.mem_cons, or_and_right]

/-! ### Regions -/

/-- No edge leads from a vertex with this property to one without. -/
def Region (g : Graph) (F : Nat → Prop) : Prop := ∀ u, F u → ∀ v ∈ (g.node u).targets, F v

variable {F : Nat → Prop}

theorem Region.of_eps (hF : g.Region F) {u v : Nat} (hu : F u) (h : v ∈ (g.node u).eps) : F v :=
  hF u hu v (Node.mem_targets.2 (.inl h))

theorem Region.of_step (hF : g.Region F) {u v : Nat} {s : Symbol} (hu : F u)
    (h : v ∈ (g.node u).step s) : F v :=
  hF u hu v (Node.mem_targets_of_mem_step h)

theorem Region.congr (hF : g.Region F) (h : ∀ u, F u → g'.node u = g.node u) : g'.Region F := by
  intro u hu v hv
  rw [h u hu] at hv
  exact hF u hu v hv

theorem Path.mono {u v : Nat} {w : List Symbol} (h : g.Path u w v)
    (heps : ∀ x y, y ∈ (g.node x).eps → y ∈ (g'.node x).eps)
    (hstep : ∀ x s, (g'.node x).step s = (g.node x).step s) : g'.Path u w v := by
  induction h with
  | nil v => exact .nil v
  | eps he _ ih => exact .eps (heps _ _ he) ih
  | read hr _ ih => exact .read (by rwa [hstep]) ih

theorem Path.adds {u v : Nat} {w : List Symbol} (h : g.Path u w v) (hE : g.Adds g' E) :
    g'.Path u w v :=
  h.mono (fun x y hy => (hE.eps x y).2 (.inl hy)) hE.step

theorem Path.transfer {u v : Nat} {w : List Symbol} (h : g.Path u w v) (hF : g.Region F)
    (hagree : ∀ x, F x → g'.node x = g.node x) (hu : F u) : g'.Path u w v := by
  induction h with
  | nil v => exact .nil v
  | eps he _ ih =>
    refine .eps ?_ (ih (hF.of_eps hu he))
    rwa [hagree _ hu]
  | read hr _ ih =>
    refine .read ?_ (ih (hF.of_step hu hr))
    rwa [hagree _ hu]

/-- Paths that start in a region only depend on the nodes of the region. -/
theorem path_congr {u v : Nat} {w : List Symbol} (hF : g.Region F)
    (hagree : ∀ x, F x → g'.node x = g.node x) (hu : F u) : g'.Path u w v ↔ g.Path u w v := by
  constructor
  · intro h
    exact h.transfer (hF.congr hagree) (fun x hx => (hagree x hx).symm) hu
  · intro h
    exact h.transfer hF hagree hu

/-- A path of the larger graph that starts in a region stays there and is a path of the
smaller one, or it leaves the region by an edge that was added.  The first such edge is
taken. -/
theorem Path.escape {u v : Nat} {w : List Symbol} (h : g'.Path u w v) (hF : g.Region F)
    (hE : g.Adds g' E) (hu : F u) :
    (F v ∧ g.Path u w v) ∨
      ∃ x t y z, w = y ++ z ∧ F x ∧ g.Path u y x ∧ E x t ∧ g'.Path t z v := by
  induction h with
  | nil v => exact .inl ⟨hu, .nil v⟩
  | @eps u v x w he hp ih =>
    rcases (hE.eps u v).1 he with he | he
    · rcases ih (hF.of_eps hu he) with ⟨hv, hp⟩ | ⟨x, t, y, z, rfl, hx, hp, hxt, hq⟩
      · exact .inl ⟨hv, .eps he hp⟩
      · exact .inr ⟨x, t, y, z, rfl, hx, .eps he hp, hxt, hq⟩
    · -- this edge was added, and nothing has been read yet
      exact .inr ⟨u, v, [], w, rfl, hu, .nil u, he, hp⟩
  | @read u v x s w hr hp ih =>
    rw [hE.step] at hr
    rcases ih (hF.of_step hu hr) with ⟨hv, hp⟩ | ⟨x, t, y, z, rfl, hx, hp, hxt, hq⟩
    · exact .inl ⟨hv, .read hr hp⟩
    · exact .inr ⟨x, t, s :: y, z, rfl, hx, .read hr hp, hxt, hq⟩

theorem Path.of_adds {u v : Nat} {w : List Symbol} (h : g'.Path u w v) (hF : g.Region F)
    (hE : g.Adds g' E) (hnone : ∀ x y, F x → ¬ E x y) (hu : F u) : g.Path u w v := by
  rcases h.escape hF hE hu with ⟨_, hp⟩ | ⟨x, t, _, _, _, hx, _, hxt, _⟩
  · exact hp
  · exact absurd hxt (hnone x t hx)

/-- A vertex without edges. -/
def Bare (g : Graph) (u : Nat) : Prop :=
  ∀ v, v ∉ (g.node u).eps ∧ ∀ s, v ∉ (g.node u).step s

theorem bare_of_size_le {u : Nat} (h : g.size ≤ u) : g.Bare u := by
  have hn : g.nodes[u]? = none := Array.getElem?_eq_none h
  simp [Bare, node_eq, hn, Node.bare, Node.step]

theorem Bare.adds {u : Nat} (h : g.Bare u) (hE : g.Adds g' E) (hu : ∀ v, ¬ E u v) :
    g'.Bare u := by
  intro v
  refine ⟨fun he => ?_, fun s hs => ?_⟩
  · rcases (hE.eps u v).1 he with he | he
    · exact (h v).1 he
    · exact hu v he
  · rw [hE.step] at hs
    exact (h v).2 s hs

/-- The vertices from a lower to an upper bound. -/
def Block (lo hi v : Nat) : Prop := lo ≤ v ∧ v < hi

theorem Region.block_append {lo mid hi : Nat} (h : g.Region (Block lo mid))
    (h' : g.Region (Block mid hi)) (hlo : lo ≤ mid) (hhi : mid ≤ hi) : g.Region (Block lo hi) := by
  intro u hu v hv
  by_cases hm : u < mid
  · obtain ⟨h1, h2⟩ := h u ⟨hu.1, hm⟩ v hv
    exact ⟨h1, by omega⟩
  · obtain ⟨h1, h2⟩ := h' u ⟨by omega, hu.2⟩ v hv
    exact ⟨by omega, h2⟩

/-- A block at the end of a graph grows with the graph if the edges that are added lead into
it. -/
theorem Adds.region_block {lo : Nat} (hE : g.Adds g' E) (h : g.Region (Block lo g.size))
    (hnew : ∀ u v, E u v → Block lo g'.size v) : g'.Region (Block lo g'.size) := by
  intro u hu v hv
  have hold : ∀ v ∈ (g.node u).targets, Block lo g'.size v := by
    intro v hv
    by_cases hlt : u < g.size
    · obtain ⟨h1, h2⟩ := h u ⟨hu.1, hlt⟩ v hv
      exact ⟨h1, lt_of_lt_of_le h2 hE.size⟩
    · -- before the change, the vertices behind the last one had no edges
      have hb := bare_of_size_le (g := g) (u := u) (by omega) v
      rcases Node.mem_targets_iff_step.1 hv with hv | ⟨s, hv⟩
      · exact absurd hv hb.1
      · exact absurd hv (hb.2 s)
  rcases Node.mem_targets_iff_step.1 hv with hv | ⟨s, hv⟩
  · rcases (hE.eps u v).1 hv with hv | hv
    · exact hold v (Node.mem_targets_iff_step.2 (.inl hv))
    · exact hnew u v hv
  · rw [hE.step] at hv
    exact hold v (Node.mem_targets_iff_step.2 (.inr ⟨s, hv⟩))

/-- A path that starts at a vertex without edges goes nowhere. -/
theorem Path.of_bare {u v : Nat} {w : List Symbol} (h : g.Path u w v) (hu : g.Bare u) :
    w = [] ∧ v = u := by
  cases h with
  | nil => exact ⟨rfl, rfl⟩
  | eps he _ => exact absurd he (hu _).1
  | read hr _ => exact absurd hr ((hu _).2 _)

/-! ### Growing graphs -/

/-- The second graph has the vertices of the first one, with the same edges, and maybe others. -/
structure Grows (g g' : Graph) : Prop where
  size : g.size ≤ g'.size
  node : ∀ v < g.size, g'.node v = g.node v

theorem Grows.refl (g : Graph) : g.Grows g := ⟨le_refl _, fun _ _ => rfl⟩

theorem Grows.trans (h : g.Grows g') (h' : g'.Grows g'') : g.Grows g'' where
  size := h.size.trans h'.size
  node v hv := by rw [h'.node v (hv.trans_le h.size), h.node v hv]

theorem region_vertices (g : Graph) : g.Region (· < g.size) :=
  fun _ _ _ hv => lt_size_of_mem_targets hv

/-- Paths that start at an old vertex stay as they are. -/
theorem Grows.path_iff (h : g.Grows g') {u v : Nat} {w : List Symbol} (hu : u < g.size) :
    g'.Path u w v ↔ g.Path u w v :=
  path_congr g.region_vertices h.node hu

end Graph

namespace Automaton

variable {a : Automaton} {g g' : Graph} {F : Nat → Prop}

/-- The language of an automaton that starts in a region only depends on the nodes of the
region. -/
theorem language_congr (hF : g.Region F) (hagree : ∀ x, F x → g'.node x = g.node x)
    (ha : F a.start) : a.language g' = a.language g := by
  ext w
  simp only [mem_language, Graph.path_congr hF hagree ha]

theorem language_of_grows (h : g.Grows g') (ha : a.start < g.size) :
    a.language g' = a.language g :=
  language_congr g.region_vertices h.node ha

end Automaton

end RegexAutomata
