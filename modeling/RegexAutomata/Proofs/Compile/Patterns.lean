/-
Patterns and their automata.

From the text of a pattern to its automaton there are five steps.  Abbreviations are spelled out
(`Source.expand_text`), negations are cancelled and concatenations marked (`Source.reading`), the
text is read (`scan_of_spells`), operators are put in order (`valueFrom_canon`) and carried out
(`runInstrs_of_value`).  `Generator.generate_source` puts them together.
-/
import RegexAutomata.Proofs.Compile.Generate
import RegexAutomata.Proofs.Pattern.Phrases

open scoped Computability

namespace RegexAutomata

open Piece

/-- The canonical form of a pattern of the source grammar. -/
theorem canonical_text {a : Alphabet}
    (ha : a.Lacks (operatorChars ++ shorthandChars ++ specialChars)) (e : Source a .expr) :
    canonical a e.text = .ok (join (canonicalPieces e.pieces)) := by
  have hcomplete : bare escapeMark ∉ e.pieces := (e.standsAlone_pieces ha).complete
  have hne : e.text.isEmpty = false := List.isEmpty_eq_false_iff.2 e.text_ne_nil
  rw [canonical, hne, e.expand_text ha]
  show Except.ok (join (joinOperands (split (dropDoubleNegations (join e.pieces))))) = _
  rw [split_dropDoubleNegations, split_join_of_complete hcomplete]
  rfl

namespace Generator

/-- Every pattern of the source grammar, and the empty one, has an automaton, which accepts the
language of the pattern. -/
theorem generate_source (a : Alphabet) (caching transitionCaching : Bool)
    (ha : a.Lacks (operatorChars ++ shorthandChars ++ specialChars)) :
    (∀ e : Source a .expr, ∃ g h,
      (new a caching transitionCaching).generate e.text = (g, .ok h) ∧
        ∀ w, (g.accepts h w).2 = true ↔ w ∈ e.denote) ∧
      ∃ g h, (new a caching transitionCaching).generate [] = (g, .ok h) ∧
        ∀ w, (g.accepts h w).2 = true ↔ w = [] := by
  have hlacks : a.Lacks (operatorChars ++ specialChars) := by
    obtain ⟨h, hspecial⟩ := Alphabet.Lacks.append.1 ha
    exact Alphabet.Lacks.append.2 ⟨(Alphabet.Lacks.append.1 h).1, hspecial⟩
  -- what a spelling of a canonical pattern is compiled to
  have hgenerate : ∀ {p c : Text} {e : Canon .expr}, canonical a p = .ok c → Spells a c e.tokens →
      ∃ g h, (new a caching transitionCaching).generate p = (g, .ok h) ∧
        ∀ w, (g.accepts h w).2 = true ↔ w ∈ e.denote a.operating := by
    intro p c e hc hspells
    obtain ⟨g, h, heq, hr⟩ := generate_of_value (g := new a caching transitionCaching) rfl hc rfl
      (value_of_spells hlacks hspells a.operating)
    exact ⟨g, h, heq, hr.accepts_iff⟩
  refine ⟨fun e => ?_, ?_⟩
  · obtain ⟨c, hspells, hdenote⟩ := (e.reading ha).spelling
    rw [← hdenote]
    exact hgenerate (canonical_text ha e) ⟨_, rfl, hspells⟩
  · have hempty : Spells a [emptyMark] (Canon.ofTerm (.ofFactor (.ofBase (.atom .empty)))).tokens :=
      ⟨[bare emptyMark], rfl, .cons .empty .nil⟩
    exact hgenerate rfl hempty

/-- Not one or more `a`, and then a plus sign or nothing. -/
def negatedThenPlus : Source (.ofText ['a']) .expr :=
  .ofTerm (.concat
    (.negated 1 (le_refl 1) (.literal 'a' (by decide)) [.oneOrMore] (by simp) 0) false
    (.ofFactor (.suffixed (.escaped '+') [.atMostOnce])))

theorem generate_source_negatedThenPlus :
    (Alphabet.ofText ['a']).Lacks (operatorChars ++ shorthandChars ++ specialChars) ∧
      ∃ g h, (new (.ofText ['a']) true false).generate ['!', 'a', '+', '/', '+', '?'] = (g, .ok h) ∧
        (g.accepts h ["?", "+"]).2 = true := by
  have hlacks :
      (Alphabet.ofText ['a']).Lacks (operatorChars ++ shorthandChars ++ specialChars) := by
    decide
  obtain ⟨g, h, hgenerate, haccepts⟩ :=
    (generate_source (.ofText ['a']) true false hlacks).1 negatedThenPlus
  refine ⟨hlacks, g, h, hgenerate, (haccepts _).2 ⟨["?"], ⟨?_, ?_⟩, ["+"], .inl rfl, rfl⟩⟩
  · intro s hs
    rw [Alphabet.mem_operating]
    revert s
    decide
  · rintro ⟨x, rfl, y, _, hxy⟩
    have hhead : ("a" : Symbol) = "?" := (List.cons.inj hxy).1
    exact absurd hhead (by decide)

end Generator

end RegexAutomata
