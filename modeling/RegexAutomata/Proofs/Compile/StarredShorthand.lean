/-
Abbreviations behind a starred operand.

An abbreviation finds its operand before negations are read, so of `!x*+` it takes `x*`, and the
negation applies to what `x*+` stands for.  A star alone is treated in the other way: `!x*` is
`(!x)*`.  So the parentheses in `(!x*)+` matter, whatever `x` is.

* `Primary.isPhrase` — primary operands, among them any pattern in parentheses;
* `Generator.suffix_behind_negatedStar` — what both patterns accept, and an input that tells them
  apart.
-/
import RegexAutomata.Proofs.Compile.Phrase

open scoped Computability

namespace RegexAutomata

open Piece

/-- Behind a star, every suffix accepts the empty input. -/
theorem nil_mem_denote_kstar (q : Suffix) (L : Language Symbol) : [] ∈ q.denote L∗ := by
  have hnil : [] ∈ L∗ := Language.nil_mem_kstar L
  cases q with
  | star => exact Language.nil_mem_kstar _
  | oneOrMore => exact ⟨[], hnil, [], Language.nil_mem_kstar _, rfl⟩
  | atMostOnce => exact .inl hnil
  | repeated b =>
    have hpow : ∀ n : Nat, [] ∈ L∗ ^ n := by
      intro n
      induction n with
      | zero => exact Language.nil_mem_one
      | succ n ih =>
        rw [pow_succ]
        exact ⟨[], ih, [], hnil, rfl⟩
    refine ⟨b.bounds.lower.getD 0, ?_, ?_, hpow _⟩
    · intro m hm
      rw [hm, Option.getD_some]
    · intro m hm
      cases hlower : b.bounds.lower with
      | none => exact Nat.zero_le m
      | some n => exact b.ordered n hlower m hm

/-! ### Primary operands -/

/-- The primary operands: single characters, marks, and patterns in parentheses. -/
inductive Primary (a : Alphabet) : Text → Prop
  | literal (c : Char) (h : a.hasChar c = true) : Primary a [c]
  | escaped (c : Char) : Primary a [escapeMark, c]
  | empty : Primary a [emptyMark]
  | any : Primary a [anyMark]
  | group (p : Text) (hne : p ≠ [])
    (hp : ∃ g h, (Generator.new a true true).generate p = (g, .ok h)) : Primary a ('(' :: p ++ [')'])

section

variable {a : Alphabet} (ha : a.Lacks (operatorChars ++ shorthandChars ++ specialChars))

include ha

/-- A pattern that can be compiled on its own is an operand when it stands in parentheses. -/
theorem isPhrase_grouped {p : Text} (hne : p ≠ [])
    (hp : ∃ g h, (Generator.new a true true).generate p = (g, .ok h)) :
    ∃ L, IsPhrase a .base ('(' :: p ++ [')']) L := by
  obtain ⟨_, _, hgenerate⟩ := hp
  obtain ⟨c, L, hc, hvalue⟩ := Generator.value_of_generate hgenerate
  exact ⟨L, isPhrase_of_value ha hne hc hvalue⟩

theorem Primary.isPhrase {x : Text} (hx : Primary a x) : ∃ L, IsPhrase a .base x L := by
  cases hx with
  | literal c hc => exact ⟨_, .literal ha hc⟩
  | escaped c => exact ⟨_, .escaped a c⟩
  | empty => exact ⟨_, .empty a⟩
  | any => exact ⟨_, .any a⟩
  | group p hne hp => exact isPhrase_grouped ha hne hp

end

namespace Generator

/-- For a primary operand `x` with the language `L`, the pattern `!x*+` has the complement of what
`+` makes of `L∗`, and `(!x*)+` has what `+` makes of the iterated complement of `L`; so it is for
any number of stars and for any abbreviation in the place of `+`.  Only the pattern with
parentheses accepts the empty input. -/
theorem suffix_behind_negatedStar (a : Alphabet) (caching transitionCaching : Bool)
    (ha : a.Lacks (operatorChars ++ shorthandChars ++ specialChars)) (x : Text) (hx : Primary a x)
    (j : Nat) (hj : 1 ≤ j) (q : Suffix) (hq : q ≠ .star) :
    ∃ (L : Language Symbol) (g₀ : Generator) (h₀ : Handle) (g : Generator) (h : Handle)
        (g' : Generator) (h' : Handle),
      ((new a caching transitionCaching).generate x = (g₀, .ok h₀) ∧
        ∀ w, (g₀.accepts h₀ w).2 = true ↔ w ∈ L) ∧
      ((new a caching transitionCaching).generate
          ('!' :: (x ++ List.replicate j '*' ++ q.text)) = (g, .ok h) ∧
        (∀ w, (g.accepts h w).2 = true ↔ w ∈ complementIn a.operating (q.denote L∗)) ∧
        (g.accepts h []).2 = false) ∧
      (new a caching transitionCaching).generate
          ('(' :: ('!' :: x ++ List.replicate j '*') ++ [')'] ++ q.text) = (g', .ok h') ∧
        (∀ w, (g'.accepts h' w).2 = true ↔ w ∈ q.denote (complementIn a.operating L)∗) ∧
        (g'.accepts h' []).2 = true := by
  obtain ⟨L, hphrase⟩ := hx.isPhrase ha
  have hinside : IsPhrase a .factor ('!' :: (x ++ List.replicate j '*' ++ q.text))
      (complementIn a.operating (q.denote L∗)) := by
    have h := (hphrase.suffixed j hq).negated
    rwa [denoteAll_replicate_star hj] at h
  have houtside : IsPhrase a .base ('(' :: ('!' :: x ++ List.replicate j '*') ++ [')'] ++ q.text)
      (q.denote (complementIn a.operating L)∗) := by
    have h := (hphrase.negated.starred hj).ofFactor.grouped.suffixed 0 hq
    rwa [List.replicate_zero, List.append_nil] at h
  have hne : x ≠ [] := by cases hx <;> exact List.cons_ne_nil _ _
  obtain ⟨g₀, h₀, hgenerate₀, haccepts₀⟩ :=
    hphrase.ofBase.generate ha hne caching transitionCaching
  obtain ⟨g, h, hgenerate, haccepts⟩ :=
    hinside.ofFactor.generate ha (List.cons_ne_nil _ _) caching transitionCaching
  obtain ⟨g', h', hgenerate', haccepts'⟩ :=
    houtside.ofBase.generate ha (List.cons_ne_nil _ _) caching transitionCaching
  refine ⟨L, g₀, h₀, g, h, g', h', ⟨hgenerate₀, haccepts₀⟩, ⟨hgenerate, haccepts, ?_⟩,
    hgenerate', haccepts', (haccepts' _).2 (nil_mem_denote_kstar q _)⟩
  rw [← Bool.not_eq_true, haccepts, mem_complementIn]
  exact fun hmem => hmem.2 (nil_mem_denote_kstar q L)

theorem suffix_behind_negatedStar_literalPlus :
    (Alphabet.ofText ['a']).Lacks (operatorChars ++ shorthandChars ++ specialChars) ∧
      Primary (.ofText ['a']) ['a'] ∧ 1 ≤ 1 ∧ Suffix.oneOrMore ≠ .star ∧
      ∃ g h g' h',
        (new (.ofText ['a']) true true).generate ['!', 'a', '*', '+'] = (g, .ok h) ∧
          (new (.ofText ['a']) true true).generate ['(', '!', 'a', '*', ')', '+'] =
            (g', .ok h') ∧
          (g.accepts h []).2 = false ∧ (g'.accepts h' []).2 = true := by
  have hlacks :
      (Alphabet.ofText ['a']).Lacks (operatorChars ++ shorthandChars ++ specialChars) := by
    decide
  have hprimary : Primary (.ofText ['a']) ['a'] := .literal 'a' (by decide)
  obtain ⟨_, _, _, g, h, g', h', _, ⟨hgenerate, _, hreject⟩, hgenerate', _, haccept⟩ :=
    suffix_behind_negatedStar (.ofText ['a']) true true hlacks ['a'] hprimary 1 (le_refl 1)
      .oneOrMore nofun
  exact ⟨hlacks, hprimary, le_refl 1, nofun, g, h, g', h', hgenerate, hgenerate', hreject,
    haccept⟩

end Generator

end RegexAutomata
