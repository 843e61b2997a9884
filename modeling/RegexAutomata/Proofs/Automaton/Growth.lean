/-
Automata whose graph grows.

All automata share one graph, and whenever a pattern is compiled the graph gets more vertices.  An
acceptor is settled if it starts at a vertex of the graph and its notes are faithful and about
vertices of the graph (`Acceptor.Settled`).

* `Acceptor.Settled.grow` — it stays settled when the graph grows;
* `Acceptor.Settled.accepts`, `Acceptor.Settled.feed` — and when it reads.
-/
import RegexAutomata.Proofs.Automaton.Edit
import RegexAutomata.Proofs.Automaton.Interleaving

namespace RegexAutomata

/-- All members of the set are vertices of the graph. -/
def VertexSet.Inside (s : VertexSet) (g : Graph) : Prop := ∀ v ∈ s, v < g.size

namespace Graph

variable {g g' : Graph}

theorem inside_closure {s : VertexSet} (hs : s.Inside g) : (g.closure s).Inside g := by
  intro v hv
  rcases VertexSet.mem_saturate_lt hv with hv | hv
  · exact hs v hv
  · exact hv

theorem inside_advance (src : VertexSet) (s : Symbol) : (g.advance src s).Inside g :=
  fun _ hv => lt_size_of_mem_advance hv

/-- Symbols lead from old vertices where they led before. -/
theorem Grows.advance_eq (h : g.Grows g') {src : VertexSet} (hsrc : src.Inside g) (s : Symbol) :
    g'.advance src s = g.advance src s := by
  refine VertexSet.ext fun v => ?_
  rw [mem_advance, mem_advance]
  refine exists_congr fun u => and_congr_right fun hu => ?_
  rw [h.node u (hsrc u hu)]
  refine exists_congr fun t => and_congr_right fun ht => ?_
  have hlt : t < g.size := lt_size_of_mem_targets (Node.mem_targets_of_mem_step ht)
  exact h.path_iff hlt

end Graph

theorem VertexSet.Inside.grow {s : VertexSet} {g g' : Graph} (hs : s.Inside g)
    (h : g.Grows g') : s.Inside g' :=
  fun v hv => (hs v hv).trans_le h.size

namespace Acceptor

variable {x : Acceptor} {g g' : Graph}

/-- The automaton starts at a vertex, and its notes are faithful and about vertices. -/
structure Settled (x : Acceptor) (g : Graph) : Prop where
  start : x.automaton.start < g.size
  faithful : x.Faithful g
  inside : ∀ src s dst, x.memo.get? src s = some dst → src.Inside g

theorem settled_ofAutomaton {a : Automaton} (ha : a.start < g.size) :
    (ofAutomaton a).Settled g where
  start := ha
  faithful := faithful_ofAutomaton a g
  inside := by
    intro src s dst h
    rw [ofAutomaton, Memo.get?_empty] at h
    cases h

theorem Settled.clearMemo (h : x.Settled g) : x.clearMemo.Settled g where
  start := h.start
  faithful := (settled_ofAutomaton h.start).faithful
  inside := (settled_ofAutomaton h.start).inside

/-- Switching remembering on or off changes no notes. -/
theorem Settled.withCaching (h : x.Settled g) (caching : Bool) : { x with caching }.Settled g :=
  ⟨h.start, h.faithful, h.inside⟩

/-- New vertices do not matter to an automaton. -/
theorem Settled.grow (h : x.Settled g) (hg : g.Grows g') : x.Settled g' where
  start := h.start.trans_le hg.size
  faithful := by
    intro src s dst hnote
    rw [hg.advance_eq (h.inside src s dst hnote)]
    exact h.faithful src s dst hnote
  inside := fun src s dst hnote => (h.inside src s dst hnote).grow hg

/-! ### Reading -/

theorem Settled.advance (h : x.Settled g) {src : VertexSet} (hsrc : src.Inside g) (s : Symbol) :
    (x.advance g src s).1.Settled g where
  start := by
    rw [(advance_spec h.faithful src s).2.2]
    exact h.start
  faithful := (advance_spec h.faithful src s).2.1
  inside := by
    intro src' s' dst hnote
    unfold Acceptor.advance at hnote
    split at hnote
    · split at hnote
      · exact h.inside src' s' dst hnote
      · -- the only new note is about the set that was read from
        rw [Memo.get?_put] at hnote
        split at hnote
        · rename_i heq
          exact heq.1 ▸ hsrc
        · exact h.inside src' s' dst hnote
    · exact h.inside src' s' dst hnote

theorem Settled.acceptsFrom (h : x.Settled g) {src : VertexSet} (hsrc : src.Inside g)
    (w : List Symbol) : (acceptsFrom g x src w).1.Settled g := by
  induction w generalizing x src with
  | nil => exact h
  | cons s w ih =>
    have hstep := h.advance hsrc s
    have hdst := (advance_spec h.faithful src s).1
    unfold Acceptor.acceptsFrom
    simp only [hdst]
    by_cases he : (g.advance src s).isEmpty = true
    · rw [if_pos he]
      exact hstep
    · rw [if_neg he]
      exact ih hstep (Graph.inside_advance src s)

theorem Settled.inside_initial (h : x.Settled g) : (x.automaton.initial g).Inside g := by
  refine Graph.inside_closure fun v hv => ?_
  rw [VertexSet.mem_singleton.1 hv]
  exact h.start

theorem Settled.accepts (h : x.Settled g) (w : List Symbol) : (x.accepts g w).1.Settled g :=
  h.acceptsFrom h.inside_initial w

theorem Settled.acceptsEach (h : x.Settled g) (ws : List (List Symbol)) :
    (acceptsEach g x ws).1.Settled g ∧ (acceptsEach g x ws).1.automaton = x.automaton := by
  induction ws generalizing x with
  | nil => exact ⟨h, rfl⟩
  | cons w ws ih =>
    obtain ⟨hsettled, hsame⟩ := ih (h.accepts w)
    exact ⟨hsettled, hsame.trans (accepts_spec h.faithful w).2.2⟩

theorem Settled.feed (h : x.Settled g) {v : Visit} (hv : v.state.Inside g) (w : List Symbol) :
    (v.feed g x w).1.Settled g ∧ (v.feed g x w).2.state.Inside g := by
  induction w generalizing x v with
  | nil => exact ⟨h, hv⟩
  | cons s w ih =>
    obtain ⟨hstate, _, _⟩ := Visit.read_spec h.faithful v s
    have hread : (v.read x g s).1.Settled g := by
      unfold Visit.read
      by_cases hfailed : v.failed = true
      · rw [if_pos hfailed]
        exact h
      · rw [if_neg hfailed]
        exact h.advance hv s
    have hinside : (v.read x g s).2.state.Inside g := by
      rw [hstate]
      exact Graph.inside_advance v.state s
    exact ih hread hinside

end Acceptor

end RegexAutomata
