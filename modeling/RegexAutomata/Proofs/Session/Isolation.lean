/-
Automata that no later step touches.

All automata of a session share one graph, in which complements even share their vertices with the
automaton that they belong to, and which every compilation puts new vertices and edges into.  But
edges are only put between vertices that the same compilation has made.  So a harmless step leaves
all vertices that there were before as they were, with their edges.

* `Graph.Grows.reaches_iff` — what can be reached from an old vertex;
* `Session.automata_after_harmless` — every automaton that has been made stays what it is.
-/
import RegexAutomata.Proofs.Session.Harmless

namespace RegexAutomata

namespace Graph

variable {g g' : Graph} {u v : Nat}

theorem Reaches.lt_size (h : g.Reaches u v) (hu : u < g.size) : v < g.size :=
  g.region_vertices.of_reaches hu h

/-- When a graph grows, nothing more can be reached from an old vertex. -/
theorem Grows.reaches_iff (h : g.Grows g') (hu : u < g.size) : g'.Reaches u v ↔ g.Reaches u v := by
  constructor
  · intro hr
    induction hr with
    | refl => exact .refl
    | tail _ hedge ih =>
      rw [h.node _ (ih.lt_size hu)] at hedge
      exact ih.tail hedge
  · intro hr
    induction hr with
    | refl => exact .refl
    | tail hr hedge ih =>
      rw [← h.node _ (Reaches.lt_size hr hu)] at hedge
      exact ih.tail hedge

end Graph

namespace Session

/-- Whatever harmless steps are run, first some and then others: the second ones change no vertex
that there was before, and no automaton.  So each automaton has the same vertices afterwards, with
the same edges, and accepts the same. -/
theorem automata_after_harmless (a : Alphabet) (caching transitionCaching : Bool)
    (first second : List Step) (hfirst : ∀ st ∈ first, st.harmless = true)
    (hsecond : ∀ st ∈ second, st.harmless = true) :
    let s := (new (.new a caching transitionCaching)).after first
    let s' := s.after second
    (∀ v < s.graph.size, s'.graph.node v = s.graph.node v) ∧
      (∀ name h, s.names.get? name = some h → h < s.generator.acceptors.size) ∧
      ∀ h < s.generator.acceptors.size,
        (s'.generator.acceptor h).automaton = (s.generator.acceptor h).automaton ∧
          (∀ v, s.graph.Reaches (s.generator.acceptor h).automaton.start v → v < s.graph.size) ∧
          (∀ v, s'.graph.Reaches (s.generator.acceptor h).automaton.start v ↔
            s.graph.Reaches (s.generator.acceptor h).automaton.start v) ∧
          ∀ w, (s'.generator.accepts h w).2 = (s.generator.accepts h w).2 := by
  intro s s'
  have hnew := consistent_new (Generator.consistent_new a caching transitionCaching)
  have hs : s.Consistent := (hnew.after hfirst).2
  have hcontinues : s.generator.Continues s'.generator := (hs.after hsecond).1
  refine ⟨hcontinues.graph.node, hs.names, fun h hh => ?_⟩
  have hstart := (hs.generator.settled h hh).start
  exact ⟨hcontinues.automaton h hh, fun v hv => hv.lt_size hstart,
    fun v => hcontinues.graph.reaches_iff hstart, hcontinues.accepts_eq hs.generator hh⟩

/-- An automaton is made and remembered. -/
def earlySteps : List Step := [.make "n" (.generate ['a'])]

/-- Afterwards it is negated and negated again, other patterns are compiled, one of them wrong, and
what is remembered is forgotten. -/
def lateSteps : List Step :=
  [.make "d" (.complement "n"), .make "e" (.complement "d"),
    .make "f" (.complementOver "d" (.ofText ['b'])), .make "m" (.generate ['b', '!', 'b']),
    .make "w" (.generate ['(', 'b']), .ask "n" (.accepts [["b"], ["a"]]), .clear .complements,
    .switch (some false) (some false)]

theorem automata_after_harmless_lateSteps :
    let s := (new (.new (.ofText ['a', 'b']) true true)).after earlySteps
    let s' := s.after lateSteps
    (∀ st ∈ earlySteps, st.harmless = true) ∧ (∀ st ∈ lateSteps, st.harmless = true) ∧
      s'.graph.node 0 = ⟨0, [("a", 1)], [], []⟩ ∧
      (s'.generator.acceptor 0).automaton = .plain 0 (.singleton 1) ∧
      (s'.generator.accepts 0 ["a"]).2 = true := by
  intro s s'
  have hearly : ∀ st ∈ earlySteps, st.harmless = true := by
    simp [earlySteps, Step.harmless, Making.harmless]
  have hlate : ∀ st ∈ lateSteps, st.harmless = true := by
    simp [lateSteps, Step.harmless, Making.harmless]
  obtain ⟨hnode, -, hautomaton⟩ :=
    automata_after_harmless (.ofText ['a', 'b']) true true earlySteps lateSteps hearly hlate
  obtain ⟨hsame, -, -, haccepts⟩ := hautomaton 0 (by decide +kernel)
  refine ⟨hearly, hlate, (hnode 0 (by decide +kernel)).trans (by decide +kernel),
    hsame.trans (by decide +kernel), (haccepts _).trans (by decide +kernel)⟩

end Session

end RegexAutomata
