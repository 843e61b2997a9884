/-
What can be reached by any edges, and automata without inversion.

* `Graph.mem_reachable` — the walk over all edges finds exactly what can be reached;
* `Path.reaches` — a path only leads to what can be reached;
* `Automaton.language_uninverted` — an automaton is replaced by one that is not inverted and
  has the same language.  Every end of a path can be reached, so exchanging the accepting
  vertices for the others that can be reached loses nothing, whatever the graph looks like.
-/
import RegexAutomata.Proofs.Automaton.Path

namespace RegexAutomata

/-! ### The walk -/

namespace Marks

variable {next : Nat → List Nat}

/-- Is this vertex marked? -/
def Marked (m : Marks) (v : Nat) : Prop := m[v]? = some true

theorem marked_set {m : Marks} {u v : Nat} (hu : m[u]? = some false) :
    Marked (m.setIfInBounds u true) v ↔ v = u ∨ Marked m v := by
  have hlt : u < m.size := (Array.getElem?_eq_some_iff.1 hu).1
  unfold Marked
  rw [Array.getElem?_setIfInBounds]
  by_cases h : u = v
  · subst h
    simp [hlt]
  · simp [h, Ne.symm h]

theorem marked_of_lt_of_ne {m : Marks} {v : Nat} (hv : v < m.size) (h : m[v]? ≠ some false) :
    Marked m v := by
  unfold Marked
  rw [Array.getElem?_eq_getElem hv] at h ⊢
  cases hm : m[v] with
  | false => exact absurd (by rw [hm]) h
  | true => rfl

theorem exists_of_marked_walk {m : Marks} {stack : List Nat} {v : Nat}
    (h : Marked (walk next m stack) v) :
    Marked m v ∨ ∃ u ∈ stack, Relation.ReflTransGen (fun a b => b ∈ next a) u v := by
  fun_induction walk next m stack with
  | case1 m => exact .inl h
  | case2 m x stack hx ih =>
    rcases ih h with h | ⟨u, hu, hr⟩
    · rcases (marked_set hx).1 h with rfl | h
      · exact .inr ⟨v, .head _, .refl⟩
      · exact .inl h
    · rcases List.mem_append.1 hu with hu | hu
      · exact .inr ⟨x, .head _, .head hu hr⟩
      · exact .inr ⟨u, .tail _ hu, hr⟩
  | case3 m x stack hx ih =>
    rcases ih h with h | ⟨u, hu, hr⟩
    · exact .inl h
    · exact .inr ⟨u, .tail _ hu, hr⟩

theorem marked_walk_of_marked {m : Marks} {stack : List Nat} {v : Nat} (h : Marked m v) :
    Marked (walk next m stack) v := by
  fun_induction walk next m stack with
  | case1 m => exact h
  | case2 m x stack hx ih => exact ih ((marked_set hx).2 (.inr h))
  | case3 m x stack hx ih => exact ih h

theorem marked_walk_of_mem {m : Marks} {stack : List Nat} {v : Nat} (hv : v ∈ stack)
    (hlt : v < m.size) : Marked (walk next m stack) v := by
  fun_induction walk next m stack with
  | case1 m => simp at hv
  | case2 m x stack hx ih =>
    rcases List.mem_cons.1 hv with rfl | hv
    · exact marked_walk_of_marked ((marked_set hx).2 (.inl rfl))
    · exact ih (List.mem_append.2 (.inr hv)) (by simpa using hlt)
  | case3 m x stack hx ih =>
    rcases List.mem_cons.1 hv with rfl | hv
    · exact marked_walk_of_marked (marked_of_lt_of_ne hlt hx)
    · exact ih hv hlt

/-- The successors of a marked vertex are marked or wait on the stack, so in the end they
are all marked. -/
theorem walk_closed {m : Marks} {stack : List Nat}
    (hm : ∀ v, Marked m v → ∀ w ∈ next v, w < m.size → Marked m w ∨ w ∈ stack) :
    ∀ v, Marked (walk next m stack) v → ∀ w ∈ next v, w < m.size →
      Marked (walk next m stack) w := by
  fun_induction walk next m stack with
  | case1 m =>
    intro v hv w hw hlt
    exact (hm v hv w hw hlt).resolve_right (by simp)
  | case2 m x stack hx ih =>
    rw [Array.size_setIfInBounds] at ih
    refine ih fun v hv w hw hlt => ?_
    rcases (marked_set hx).1 hv with rfl | hv
    · exact .inr (List.mem_append.2 (.inl hw))
    · rcases hm v hv w hw hlt with h | h
      · exact .inl ((marked_set hx).2 (.inr h))
      · rcases List.mem_cons.1 h with rfl | h
        · exact .inl ((marked_set hx).2 (.inl rfl))
        · exact .inr (List.mem_append.2 (.inr h))
  | case3 m x stack hx ih =>
    refine ih fun v hv w hw hlt => ?_
    rcases hm v hv w hw hlt with h | h
    · exact .inl h
    · rcases List.mem_cons.1 h with rfl | h
      · exact .inl (marked_of_lt_of_ne hlt hx)
      · exact .inr h

end Marks

namespace Graph

variable {g : Graph}

/-- Some edges lead from one vertex to the other. -/
def Reaches (g : Graph) : Nat → Nat → Prop :=
  Relation.ReflTransGen fun a b => b ∈ (g.node a).targets

theorem node_of_size_le {v : Nat} (h : g.size ≤ v) : g.node v = .bare 0 := by
  unfold node Array.getD
  rw [dif_neg (by unfold size at h; omega)]

/-- The walk over all edges finds exactly what can be reached. -/
theorem mem_reachable {u v : Nat} : v ∈ g.reachable u ↔ g.Reaches u v := by
  unfold reachable
  set next : Nat → List Nat := fun a => (g.node a).targets
  have hsize : (Marks.none g.size).size = g.size := by simp [Marks.none]
  have hnone : ∀ x, ¬ Marks.Marked (Marks.none g.size) x := by
    intro x hx
    simp [Marks.Marked, Marks.none, Array.getElem?_replicate] at hx
  rw [VertexSet.mem_insert, Marks.mem_toSet]
  constructor
  · rintro (rfl | h)
    · exact .refl
    · rcases Marks.exists_of_marked_walk h with h | ⟨x, hx, hr⟩
      · exact absurd h (hnone v)
      · rw [List.mem_singleton] at hx
        exact hx ▸ hr
  · intro h
    have hclosed : ∀ x, Marks.Marked (Marks.walk next (Marks.none g.size) [u]) x → ∀ y ∈ next x,
        y < (Marks.none g.size).size → Marks.Marked (Marks.walk next (Marks.none g.size) [u]) y :=
      Marks.walk_closed fun x hx => absurd hx (hnone x)
    induction h with
    | refl => exact .inl rfl
    | @tail b c _ hbc ih =>
      have hc : c < (Marks.none g.size).size := by
        rw [hsize]
        exact lt_size_of_mem_targets hbc
      refine .inr ?_
      rcases ih with rfl | hb
      · -- the walk starts here; an edge leads out, so it is a vertex of the graph
        have hb : b < (Marks.none g.size).size := by
          rw [hsize]
          by_contra hn
          rw [node_of_size_le (by omega)] at hbc
          simp [Node.bare, Node.targets] at hbc
        exact hclosed b (Marks.marked_walk_of_mem (List.mem_singleton.2 rfl) hb) c hbc hc
      · exact hclosed b hb c hbc hc

theorem Path.reaches {u v : Nat} {w : List Symbol} (h : g.Path u w v) : g.Reaches u v := by
  induction h with
  | nil v => exact .refl
  | eps he _ ih => exact .head (Node.mem_targets.2 (.inl he)) ih
  | read hr _ ih => exact .head (Node.mem_targets_of_mem_step hr) ih

end Graph

/-! ### Inversion -/

namespace Automaton

variable {a b : Automaton} {g : Graph}

theorem final_of_not_inverted (h : a.inverted = false) {v : Nat} :
    a.Final v ↔ v ∈ a.accepting := by
  simp [Final, h]

theorem uninverted_of_deterministic (h : a.inverted = true → a.deterministic = true) :
    ∃ b, a.uninverted? g = some b := by
  unfold uninverted?
  cases hi : a.inverted with
  | false => exact ⟨a, rfl⟩
  | true => simp [h hi]

theorem inverted_of_uninverted (h : a.uninverted? g = some b) : b.inverted = false := by
  unfold uninverted? at h
  split at h
  · rename_i hi
    cases h
    simpa using hi
  · split at h
    · cases h
    · cases h
      rfl

theorem start_of_uninverted (h : a.uninverted? g = some b) : b.start = a.start := by
  unfold uninverted? at h
  split at h
  · cases h
    rfl
  · split at h <;> cases h
    rfl

theorem accepting_of_uninverted (h : a.uninverted? g = some b) {v : Nat}
    (hv : v ∈ b.accepting) : v ∈ a.accepting ∨ g.Reaches a.start v := by
  unfold uninverted? at h
  split at h
  · cases h
    exact .inl hv
  · split at h
    · cases h
    · cases h
      exact .inr (Graph.mem_reachable.1 (VertexSet.mem_diff.1 hv).1)

/-- The automaton without inversion has the same language. -/
theorem language_uninverted (h : a.uninverted? g = some b) : b.language g = a.language g := by
  ext w
  simp only [mem_language, start_of_uninverted h]
  refine exists_congr fun v => and_congr_right fun hp => ?_
  rw [final_of_not_inverted (inverted_of_uninverted h)]
  unfold uninverted? at h
  split at h
  · rename_i hi
    cases h
    rw [final_of_not_inverted (by simpa using hi)]
  · rename_i hi
    split at h
    · cases h
    · cases h
      -- the end of a path is among the vertices that change places
      rw [VertexSet.mem_diff, vertices, Graph.mem_reachable]
      simp [Final, hp.reaches, show a.inverted = true by simpa using hi]

end Automaton

end RegexAutomata
