/-
Canonical forms as patterns.

A canonical form is a pattern in its own right.  It has no abbreviations left, and neither of the
last two passes finds anything to do in it.  It need not be its own canonical form, since its escaped
pairs are put into parentheses once more; but it is a phrase with the language of the pattern that
it comes from, so it can be compiled, and its automaton accepts the same inputs.

* `exists_value_canonical` — the canonical form of a canonical form has the same language;
* `Session.generate_canonical` — what a session makes of a pattern and of its canonical form.
-/
import RegexAutomata.Proofs.Compile.Phrase
import RegexAutomata.Proofs.Session.Harmless

namespace RegexAutomata

open Piece

section

variable {a : Alphabet} {p c : Text} {L : Language Symbol}

/-- The empty text leaves no language. -/
theorem ne_nil_of_value {symbols : List Symbol}
    (hvalue : (Program.ofText a c).value symbols [] = some [L]) : c ≠ [] := by
  rintro rfl
  cases hvalue

variable (ha : a.Lacks (operatorChars ++ shorthandChars ++ specialChars))

include ha

/-- What starts an abbreviation is a character that stands for no token. -/
theorem not_bare_trigger (hc : canonical a p = .ok c)
    (hvalue : (Program.ofText a c).value a.operating [] = some [L]) {d : Char}
    (hd : d ∈ triggerChars) : bare d ∉ split c := by
  intro hmem
  have hshorthand : a.Lacks shorthandChars :=
    (Alphabet.Lacks.append.1 (Alphabet.Lacks.append.1 ha).1).2
  have hnone : d ∈ shorthandChars ∧ isOperator d = false ∧ isSpecial d = false := by
    simp only [triggerChars, List.mem_cons, List.not_mem_nil, or_false] at hd
    rcases hd with rfl | rfl | rfl | rfl <;> decide
  exact not_derivable_of_bare (hshorthand d hnone.1) hnone.2.1 hnone.2.2 hmem
    (derivable_of_value ha.operators hc hvalue)

/-- A canonical form with a language is a pattern with this language. -/
theorem exists_value_canonical (hc : canonical a p = .ok c)
    (hvalue : (Program.ofText a c).value a.operating [] = some [L]) :
    ∃ c', canonical a c = .ok c' ∧ (Program.ofText a c').value a.operating [] = some [L] := by
  obtain ⟨e, hspells, rfl⟩ := exists_tree_of_value ha hc hvalue
  have hphrase := isPhrase_of_spells ha e hspells
  rw [join_split] at hphrase
  exact hphrase.exists_value ha (ne_nil_of_value hvalue)

end

namespace Session

/-- If a session has an automaton for a pattern, then each session for the same alphabet, whatever
it has done before, gives the pattern a canonical form without abbreviations in which the last two
passes change nothing, and has an automaton for the canonical form that accepts the same inputs. -/
theorem generate_canonical (a : Alphabet) (caching transitionCaching : Bool)
    (ha : a.Lacks (operatorChars ++ shorthandChars ++ specialChars)) (steps steps' : List Step)
    (hsteps : ∀ st ∈ steps, st.harmless = true) (hsteps' : ∀ st ∈ steps', st.harmless = true)
    (p : Text) (g₁ : Generator) (h₁ : Handle)
    (hgenerate : ((new (.new a caching transitionCaching)).after steps).generator.generate p =
      (g₁, .ok h₁)) :
    ∃ c, (((new (.new a caching transitionCaching)).after steps').generator.elongate p).2 = .ok c ∧
      (∀ d ∈ triggerChars, bare d ∉ split c) ∧
      dropDoubleNegations c = c ∧ markConcatenations c = c ∧
      ∃ g₂ h₂, ((new (.new a caching transitionCaching)).after steps').generator.generate c =
          (g₂, .ok h₂) ∧
        ∀ w, (g₂.accepts h₂ w).2 = (g₁.accepts h₁ w).2 := by
  obtain ⟨hg, halphabet⟩ := consistent_generator_after a caching transitionCaching hsteps
  obtain ⟨hg', halphabet'⟩ := consistent_generator_after a caching transitionCaching hsteps'
  set g' := ((new (.new a caching transitionCaching)).after steps').generator
  obtain ⟨-, c, L, hc, hvalue, hr⟩ := hg.value_of_generate hgenerate
  rw [halphabet] at hc hvalue
  obtain ⟨c', hc', hvalue'⟩ := exists_value_canonical ha hc hvalue
  have helongate : (g'.elongate p).2 = .ok c := by
    obtain ⟨_, heq, _⟩ := hg'.elongate_eq (halphabet'.symm ▸ hc)
    rw [heq]
  obtain ⟨_, h₂, hok, hr'⟩ :=
    hg'.gives_language (halphabet'.symm ▸ hc') (halphabet'.symm ▸ hvalue')
  refine ⟨c, helongate, fun d hd => not_bare_trigger ha hc hvalue hd,
    dropDoubleNegations_canonical hc, markConcatenations_canonical hc, _, h₂,
    Prod.ext rfl hok, fun w => ?_⟩
  rw [Bool.eq_iff_iff, hr'.accepts_iff, hr.accepts_iff]

theorem generate_canonical_escapedPlus :
    let g₀ := ((new (.new (.ofText ['a']) true true)).after []).generator
    let p := ['a', '+', '/', '+', '!', '!', 'a', '?']
    let c := "(a&a*)&(/+)&(a|#)".toList
    let steps' := [Step.make "known" (.generate p)]
    let g' := ((new (.new (.ofText ['a']) true true)).after steps').generator
    (Alphabet.ofText ['a']).Lacks (operatorChars ++ shorthandChars ++ specialChars) ∧
      (∀ st ∈ steps', st.harmless = true) ∧ (g₀.generate p).2 = .ok 0 ∧
      (g'.elongate p).2 = .ok c ∧ markConcatenations c = c ∧
      ∃ g₂ h₂, g'.generate c = (g₂, .ok h₂) ∧
        (g₂.accepts h₂ ["a", "a", "+"]).2 = true ∧ (g₂.accepts h₂ ["a", "+", "+"]).2 = false := by
  intro g₀ p c steps' g'
  have hlacks :
      (Alphabet.ofText ['a']).Lacks (operatorChars ++ shorthandChars ++ specialChars) := by
    decide
  have hharmless : ∀ st ∈ steps', st.harmless = true := by
    simp [steps', Step.harmless, Making.harmless]
  have hok : (g₀.generate p).2 = .ok 0 := by decide +kernel
  have hc : (g'.elongate p).2 = .ok c := by decide +kernel
  have haccept : ((g₀.generate p).1.accepts 0 ["a", "a", "+"]).2 = true := by decide +kernel
  have hreject : ((g₀.generate p).1.accepts 0 ["a", "+", "+"]).2 = false := by decide +kernel
  obtain ⟨d, hd, -, -, hmark, g₂, h₂, hgenerate, haccepts⟩ :=
    generate_canonical (.ofText ['a']) true true hlacks [] steps' (by simp) hharmless p _ 0
      (Prod.ext rfl hok)
  obtain rfl : d = c := Except.ok.inj (hd.symm.trans hc)
  exact ⟨hlacks, hharmless, hok, hc, hmark, g₂, h₂, hgenerate, (haccepts _).trans haccept,
    (haccepts _).trans hreject⟩

end Session

end RegexAutomata
