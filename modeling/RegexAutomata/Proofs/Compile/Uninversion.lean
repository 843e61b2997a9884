/-
Automata without inversion.

An inverted automaton that is marked as deterministic can be replaced by one that is not inverted.
Nothing is asked of its graph, and the mark may be wrong.  The accepting vertices change places with
the others that can be reached, and whatever is read leads to vertices that can be reached.

* `Automaton.frontier_subset_vertices` — reading never leads out of the vertices of the automaton;
* `Acceptor.Reliable.accepts_eq` — notes that are not used do not matter;
* `Generator.accepts_uninverted` — the automaton that is made, and what it accepts.
-/
import RegexAutomata.Proofs.Automaton.Reach
import RegexAutomata.Proofs.Compile.Combination

namespace RegexAutomata

namespace Automaton

variable {a b : Automaton} {g : Graph}

/-- Wherever reading can lead, the search for the vertices of the automaton has been. -/
theorem frontier_subset_vertices (a : Automaton) (g : Graph) (w : List Symbol) :
    ∀ v ∈ g.frontier (a.initial g) w, v ∈ a.vertices g := by
  intro v hv
  have hpath : g.Path a.start w v := mem_frontier_initial.1 hv
  exact Graph.mem_reachable.2 hpath.reaches

theorem vertices_uninverted (h : a.uninverted? g = some b) : b.vertices g = a.vertices g := by
  rw [vertices, vertices, start_of_uninverted h]

theorem accepts_of_uninverted (h : a.uninverted? g = some b) (w : List Symbol) :
    b.accepts g w = a.accepts g w := by
  rw [Bool.eq_iff_iff, accepts_iff, accepts_iff, language_uninverted h]

theorem deterministic_of_uninverted (h : a.uninverted? g = some b) :
    b.deterministic = a.deterministic := by
  unfold uninverted? at h
  split at h
  · cases h
    rfl
  · split at h
    · cases h
    · rename_i hmark
      cases h
      simpa using hmark

end Automaton

namespace Acceptor

variable {x : Acceptor} {g : Graph}

/-- If the notes are used, they are faithful. -/
def Reliable (x : Acceptor) (g : Graph) : Prop := x.caching = true → x.Faithful g

theorem acceptsFrom_of_not_caching (hc : x.caching = false) (src : VertexSet) (w : List Symbol) :
    (acceptsFrom g x src w).2 = x.automaton.acceptsFrom g src w := by
  induction w generalizing src with
  | nil => rfl
  | cons s w ih =>
    have hadvance : x.advance g src s = (x, g.advance src s) := by
      rw [advance, hc]
      rfl
    unfold acceptsFrom Automaton.acceptsFrom
    simp only [hadvance]
    by_cases he : (g.advance src s).isEmpty = true
    · rw [if_pos he, if_pos he]
    · rw [if_neg he, if_neg he]
      exact ih _

theorem Reliable.accepts_eq (h : x.Reliable g) (w : List Symbol) :
    (x.accepts g w).2 = x.automaton.accepts g w := by
  cases hc : x.caching with
  | true => exact (accepts_spec (h hc) w).1
  | false => exact acceptsFrom_of_not_caching hc _ w

end Acceptor

namespace Generator

/-- From an automaton that is marked as deterministic, one is made that is not inverted and accepts
the same.  It has the same vertices: all those where the given one can be while it reads, and maybe
others. -/
theorem accepts_uninverted (g : Generator) (h : Handle)
    (hmark : (g.acceptor h).automaton.deterministic = true) :
    let a := (g.acceptor h).automaton
    (∀ w, ∀ v ∈ g.graph.frontier (a.initial g.graph) w, v ∈ a.vertices g.graph) ∧
      ∃ g' u, g.uninverted h = (g', .ok u) ∧ g'.graph = g.graph ∧
        let b := (g'.acceptor u).automaton
        b.inverted = false ∧ b.deterministic = true ∧
          b.vertices g.graph = a.vertices g.graph ∧ (∀ v ∈ b.accepting, a.Owns g.graph v) ∧
          (∀ w, b.accepts g.graph w = a.accepts g.graph w) ∧
          ((g.acceptor h).Reliable g.graph → ∀ w, (g'.accepts u w).2 = (g.accepts h w).2) := by
  intro a
  refine ⟨a.frontier_subset_vertices g.graph, ?_⟩
  cases hi : a.inverted with
  | false =>
    -- the automaton itself is returned
    refine ⟨g, h, ?_, rfl, hi, hmark, rfl, fun v hv => .inr hv, fun _ => rfl, fun _ _ => rfl⟩
    show (if !a.inverted then _ else _) = _
    rw [hi]
    rfl
  | true =>
    obtain ⟨b, hb⟩ := Automaton.uninverted_of_deterministic (g := g.graph) fun _ => hmark
    have hmade : g.uninverted h = ((g.keep (.ofAutomaton b)).1, .ok g.acceptors.size) := by
      show (if !a.inverted then _ else g.keepBuilt? (g.builder, a.uninverted? g.graph)) = _
      rw [hi, hb]
      rfl
    have hkept : (g.keep (.ofAutomaton b)).1.acceptor g.acceptors.size = .ofAutomaton b :=
      acceptor_keep g _
    refine ⟨_, _, hmade, rfl, ?_⟩
    rw [hkept]
    refine ⟨Automaton.inverted_of_uninverted hb,
      (Automaton.deterministic_of_uninverted hb).trans hmark, Automaton.vertices_uninverted hb,
      fun v hv => (Automaton.accepting_of_uninverted hb hv).symm,
      Automaton.accepts_of_uninverted hb, fun hreliable w => ?_⟩
    have hnew : (Acceptor.ofAutomaton b).Faithful g.graph := Acceptor.faithful_ofAutomaton b _
    calc ((g.keep (.ofAutomaton b)).1.accepts g.acceptors.size w).2
        = (((g.keep (.ofAutomaton b)).1.acceptor g.acceptors.size).accepts g.graph w).2 := rfl
      _ = ((Acceptor.ofAutomaton b).accepts g.graph w).2 := by rw [hkept]
      _ = b.accepts g.graph w := (Acceptor.accepts_spec hnew w).1
      _ = a.accepts g.graph w := Automaton.accepts_of_uninverted hb w
      _ = (g.accepts h w).2 := (hreliable.accepts_eq w).symm

/-- An inverted automaton that goes in a circle between two vertices, knows one symbol at each of
them, and accepts at one of them and at a vertex out of reach. -/
def circling : Generator :=
  { new (.ofText ['a', 'b']) true true with
    builder :=
      { Builder.new with
        graph :=
          { nodes := #[⟨0, [("a", 1)], [], []⟩, ⟨1, [("b", 0)], [], []⟩, ⟨2, [], [0], []⟩]
            closed := by decide }
        nextId := 3 }
    acceptors := #[.ofAutomaton ⟨0, .ofList [1, 2], true, true⟩] }

theorem accepts_uninverted_circling :
    (circling.acceptor 0).automaton.deterministic = true ∧
      ∃ g u, circling.uninverted 0 = (g, .ok u) ∧ (g.acceptor u).automaton.inverted = false ∧
        (g.accepts u ["a", "b"]).2 = true ∧ (g.accepts u ["a"]).2 = false ∧
        (g.accepts u ["b"]).2 = false := by
  have hmark : (circling.acceptor 0).automaton.deterministic = true := rfl
  obtain ⟨-, g, u, hmade, -, hinverted, -, -, -, -, haccepts⟩ := accepts_uninverted circling 0 hmark
  have haccepts := haccepts nofun
  refine ⟨hmark, g, u, hmade, hinverted, ?_, ?_, ?_⟩
  · rw [haccepts]
    decide +kernel
  · rw [haccepts]
    decide +kernel
  · rw [haccepts]
    decide +kernel

end Generator

end RegexAutomata
