/-
Notes do not change what an automaton accepts.

The notes of an acceptor are faithful if each of them says where its symbol really leads
(`Acceptor.Faithful`).  Reading keeps them faithful, so an automaton with faithful notes gives the
same answer as one without any:

* `Acceptor.advance_spec` — one symbol;
* `Acceptor.accepts_spec` — a whole sequence;
* `Generator.accepts_iff_of_faithful` — the same for an automaton of a generator.
-/
import RegexAutomata.Generator
import RegexAutomata.Proofs.Automaton.Path

namespace RegexAutomata

namespace Acceptor

variable {x : Acceptor} {g : Graph}

/-- Each note says where its symbol really leads. -/
def Faithful (x : Acceptor) (g : Graph) : Prop :=
  ∀ src s dst, x.memo.get? src s = some dst → dst = g.advance src s

theorem faithful_ofAutomaton (a : Automaton) (g : Graph) : (ofAutomaton a).Faithful g := by
  intro src s dst h
  rw [ofAutomaton, Memo.get?_empty] at h
  cases h

theorem faithful_disableCaching (h : x.Faithful g) : x.disableCaching.Faithful g := h

/-- Reading a symbol leads where the graph says, and keeps the notes faithful. -/
theorem advance_spec (h : x.Faithful g) (src : VertexSet) (s : Symbol) :
    (x.advance g src s).2 = g.advance src s ∧ (x.advance g src s).1.Faithful g ∧
      (x.advance g src s).1.automaton = x.automaton := by
  unfold advance
  by_cases hc : x.caching = true
  · rw [if_pos hc]
    cases hm : x.memo.get? src s with
    | some dst => exact ⟨h src s dst hm, h, rfl⟩
    | none =>
      -- one note is new, and says where the graph leads
      refine ⟨rfl, fun src' s' dst hdst => ?_, rfl⟩
      rw [Memo.get?_put] at hdst
      split at hdst
      · rename_i heq
        obtain ⟨rfl, rfl⟩ := heq
        exact (Option.some.inj hdst).symm
      · exact h src' s' dst hdst
  · rw [if_neg hc]
    exact ⟨rfl, h, rfl⟩

theorem acceptsFrom_spec (h : x.Faithful g) (src : VertexSet) (w : List Symbol) :
    (acceptsFrom g x src w).2 = x.automaton.acceptsFrom g src w ∧
      (acceptsFrom g x src w).1.Faithful g ∧
      (acceptsFrom g x src w).1.automaton = x.automaton := by
  induction w generalizing x src with
  | nil => exact ⟨rfl, h, rfl⟩
  | cons s w ih =>
    obtain ⟨h1, h2, h3⟩ := advance_spec h src s
    unfold acceptsFrom Automaton.acceptsFrom
    simp only [h1]
    by_cases he : (g.advance src s).isEmpty = true
    · rw [if_pos he, if_pos he]
      exact ⟨rfl, h2, h3⟩
    · rw [if_neg he, if_neg he]
      obtain ⟨k1, k2, k3⟩ := ih h2 (g.advance src s)
      exact ⟨by rw [k1, h3], k2, k3.trans h3⟩

/-- An automaton with faithful notes answers like one without any, and its notes stay
faithful. -/
theorem accepts_spec (h : x.Faithful g) (w : List Symbol) :
    (x.accepts g w).2 = x.automaton.accepts g w ∧ (x.accepts g w).1.Faithful g ∧
      (x.accepts g w).1.automaton = x.automaton :=
  acceptsFrom_spec h _ w

end Acceptor

namespace Generator

variable {g : Generator} {h : Handle}

theorem accepts_iff_of_faithful (hf : (g.acceptor h).Faithful g.graph) {w : List Symbol} :
    (g.accepts h w).2 = true ↔ w ∈ (g.acceptor h).automaton.language g.graph := by
  rw [← Automaton.accepts_iff, ← (Acceptor.accepts_spec hf w).1]
  rfl

theorem acceptor_keep (g : Generator) (x : Acceptor) :
    (g.keep x).1.acceptor g.acceptors.size = x := by
  simp [acceptor, keep]

end Generator

end RegexAutomata
