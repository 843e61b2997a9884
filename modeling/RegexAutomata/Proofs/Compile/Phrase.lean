/-
Phrases.

A phrase is a text that becomes pieces which stand on their own and which the last two passes make a
spelling of a language (`IsPhrase`).  Phrases are put together text by text, whether or not they
follow the source grammar, and their languages are put together along with them.

* `IsPhrase.concat`, `union`, `grouped`, `negated`, … — one lemma for each way to put phrases together;
* `isPhrase_of_value` — any pattern that has a language is a phrase when it stands in parentheses;
* `isPhrase_of_spells` — canonical patterns, by induction on the syntax tree;
* `IsPhrase.exists_value`, `IsPhrase.generate` — there is an automaton for every phrase.
-/
import RegexAutomata.Proofs.Compile.Acceptance
import RegexAutomata.Proofs.Pattern.Enclosing

open scoped Computability

namespace RegexAutomata

open Piece

/-! ### Stars and suffixes -/

theorem flatMap_replicate_star (j : Nat) :
    (List.replicate j Suffix.star).flatMap Suffix.text = List.replicate j '*' := by
  induction j with
  | zero => rfl
  | succ j ih => exact congrArg ('*' :: ·) ih

/-- Many stars are as good as one. -/
theorem denoteAll_replicate_star {j : Nat} (hj : 1 ≤ j) (L : Language Symbol) :
    Suffix.denoteAll (List.replicate j .star) L = L∗ := by
  induction j, hj using Nat.le_induction generalizing L with
  | base => rfl
  | succ j _ ih =>
    show Suffix.denoteAll (List.replicate j .star) L∗ = L∗
    rw [ih, kstar_idem]

/-! ### Phrases -/

/-- The text becomes pieces that can stand on their own, and the last two passes make of them a
spelling of the language. -/
def IsPhrase (a : Alphabet) (l : Level) (t : Text) (L : Language Symbol) : Prop :=
  ∃ qs, Expands a t qs ∧ l.StandsAlone qs ∧ Reading a a.operating l qs L

namespace IsPhrase

variable {a : Alphabet} {t u : Text} {L M : Language Symbol}

theorem asFactor (h : IsPhrase a .base t L) : IsPhrase a .factor t L := by
  obtain ⟨qs, hexpands, hqs, hr⟩ := h
  exact ⟨qs, hexpands, IsOperand.selfContained hqs, hr.ofBase⟩

theorem asTerm (h : IsPhrase a .factor t L) : IsPhrase a .term t L := by
  obtain ⟨qs, hexpands, hqs, hr⟩ := h
  exact ⟨qs, hexpands, hqs, hr.ofFactor⟩

theorem ofTerm (h : IsPhrase a .term t L) : IsPhrase a .expr t L := by
  obtain ⟨qs, hexpands, hqs, hr⟩ := h
  exact ⟨qs, hexpands, hqs, hr.ofTerm⟩

theorem ofFactor (h : IsPhrase a .factor t L) : IsPhrase a .expr t L := h.asTerm.ofTerm

theorem ofBase (h : IsPhrase a .base t L) : IsPhrase a .expr t L := h.asFactor.ofFactor

theorem any (a : Alphabet) : IsPhrase a .base [anyMark] Atom.any.language :=
  ⟨_, expands_untouched ⟨by decide, rfl⟩, .plain rfl rfl (by decide), .atom .any rfl rfl⟩

theorem empty (a : Alphabet) : IsPhrase a .base [emptyMark] Atom.empty.language :=
  ⟨_, expands_untouched ⟨by decide, rfl⟩, .plain rfl rfl (by decide), .empty⟩

theorem escaped (a : Alphabet) (c : Char) :
    IsPhrase a .base [escapeMark, c] (Atom.one (Symbol.ofChar c)).language :=
  ⟨_, expands_escape c, isOperand_grouped_escaped c, reading_escaped c⟩

theorem literal (ha : a.Lacks (operatorChars ++ shorthandChars ++ specialChars)) {c : Char}
    (hc : a.hasChar c = true) : IsPhrase a .base [c] (Atom.one (Symbol.ofChar c)).language :=
  ⟨_, expands_untouched (untouched_of_hasChar ha hc), isOperand_bare ha hc, reading_bare ha hc⟩

theorem concat (ht : IsPhrase a .factor t L) (hu : IsPhrase a .term u M) :
    IsPhrase a .term (t ++ u) (L * M) := by
  obtain ⟨qs, hexpands, hqs, hr⟩ := ht
  obtain ⟨rs, hexpands', hrs, hr'⟩ := hu
  exact ⟨qs ++ rs, hexpands.append (SelfContained.complete hqs) hexpands',
    SelfContained.append hqs hrs, hr.concat hr'⟩

theorem concat_marked (ht : IsPhrase a .factor t L) (hu : IsPhrase a .term u M) :
    IsPhrase a .term (t ++ '&' :: u) (L * M) := by
  obtain ⟨qs, hexpands, hqs, hr⟩ := ht
  obtain ⟨rs, hexpands', hrs, hr'⟩ := hu
  have hmark : Expands a ['&'] [bare '&'] := expands_untouched ⟨by decide, rfl⟩
  refine ⟨qs ++ [bare '&'] ++ rs, ?_, ?_, hr.concat_marked hr'⟩
  · rw [List.append_assoc]
    exact hexpands.append (SelfContained.complete hqs) (hmark.append (by decide) hexpands')
  · exact (SelfContained.append hqs (selfContained_bare (by decide))).append hrs

theorem union (ht : IsPhrase a .term t L) (hu : IsPhrase a .expr u M) :
    IsPhrase a .expr (t ++ '|' :: u) (L + M) := by
  obtain ⟨qs, hexpands, hqs, hr⟩ := ht
  obtain ⟨rs, hexpands', hrs, hr'⟩ := hu
  have hmark : Expands a ['|'] [bare '|'] := expands_untouched ⟨by decide, rfl⟩
  have hbar : SelfContained [bare '|'] := selfContained_bare (by decide)
  exact ⟨qs ++ bare '|' :: rs,
    hexpands.append (SelfContained.complete hqs) (hmark.append (by decide) hexpands'),
    SelfContained.append hqs (hbar.append hrs), hr.union hr'⟩

theorem grouped (h : IsPhrase a .expr t L) : IsPhrase a .base ('(' :: t ++ [')']) L := by
  obtain ⟨qs, hexpands, hqs, hr⟩ := h
  exact ⟨_, expands_grouped hexpands (SelfContained.complete hqs), .group hqs, hr.group⟩

theorem negated (h : IsPhrase a .base t L) :
    IsPhrase a .factor ('!' :: t) (complementIn a.operating L) := by
  obtain ⟨qs, hexpands, hqs, hr⟩ := h
  have hmark : Expands a ['!'] [bare '!'] := expands_untouched ⟨by decide, rfl⟩
  have hnegation := hr.negations (IsOperand.head_ne hqs) 1
  rw [if_pos (by decide)] at hnegation
  exact ⟨_, hmark.append (by decide) hexpands,
    (selfContained_bare (by decide)).append (IsOperand.selfContained hqs), hnegation⟩

theorem starred (h : IsPhrase a .factor t L) {j : Nat} (hj : 1 ≤ j) :
    IsPhrase a .factor (t ++ List.replicate j '*') L∗ := by
  obtain ⟨qs, hexpands, hqs, hr⟩ := h
  have hstars := hr.stars j
  rw [denoteAll_replicate_star hj] at hstars
  exact ⟨_, hexpands.append (SelfContained.complete hqs) (expands_replicate ⟨by decide, rfl⟩ j),
    SelfContained.append hqs (selfContained_replicate (by decide) j), hstars⟩

/-- An abbreviation applies to the whole operand before it, with all its stars. -/
theorem suffixed (h : IsPhrase a .base t L) (j : Nat) {q : Suffix} (hq : q ≠ .star) :
    IsPhrase a .base (t ++ List.replicate j '*' ++ q.text)
      (q.denote (Suffix.denoteAll (List.replicate j .star) L)) := by
  obtain ⟨qs, hexpands, hqs, hr⟩ := h
  have hstarred := hexpands.suffixes hqs (List.replicate j .star)
  rw [flatMap_replicate_star] at hstarred
  have hoperand : IsOperand (Suffix.expandAll (List.replicate j .star) qs) :=
    IsOperand.expandAll hqs _
  exact ⟨_, hstarred.suffix hoperand q, hoperand.expand q,
    (hr.ofBase.suffixes _).suffix_of_ne_star hq⟩

end IsPhrase

/-! ### Patterns with a language -/

section

variable {a : Alphabet} (ha : a.Lacks (operatorChars ++ shorthandChars ++ specialChars))

include ha

/-- A canonical pattern that has a language spells a syntax tree for it. -/
theorem exists_tree_of_value {p c : Text} {L : Language Symbol} (hc : canonical a p = .ok c)
    (hvalue : (Program.ofText a c).value a.operating [] = some [L]) :
    ∃ e : Canon .expr, List.Forall₂ (Piece.Spells a) (split c) e.tokens ∧
      e.denote a.operating = L := by
  obtain ⟨hstop, e, he⟩ := derivable_of_value ha.operators hc hvalue
  rw [Program.value_ofText, if_pos hstop, ← he, valueFrom_expr] at hvalue
  refine ⟨e, ?_, by simpa using hvalue⟩
  rw [he]
  exact spells_of_scanFrom hstop

/-- A pattern that has a language on its own is an operand with this language when it stands in
parentheses. -/
theorem isPhrase_of_value {p c : Text} {L : Language Symbol} (hne : p ≠ [])
    (hc : canonical a p = .ok c)
    (hvalue : (Program.ofText a c).value a.operating [] = some [L]) :
    IsPhrase a .base ('(' :: p ++ [')']) L := by
  obtain ⟨e, hspells, rfl⟩ := exists_tree_of_value ha hc hvalue
  obtain ⟨qs, hqs, hexpands, rfl⟩ := expands_of_canonical hne hc
  rw [split_join_canonicalPieces hqs] at hspells
  have hnested : Nested qs :=
    nested_of_spells ha.operators hspells (exists_tokens_eq_iff.1 ⟨e, rfl⟩).2
  -- the pieces inside need not start and end like an operand, so `Reading.group` does not apply
  refine ⟨grouped qs, expands_grouped hexpands hqs, .group ⟨hnested, hqs⟩,
    ⟨bare '(', _, cancelNegations_cons (by decide) _, rfl⟩, ⟨_, bare ')', rfl, rfl⟩,
    .group e, ?_, rfl⟩
  rw [canonicalPieces_grouped]
  exact .cons (.op .opening) (List.rel_append hspells (.cons (.op .closing) .nil))

omit ha in
/-- Pieces that spell tokens one after the other are pieces one after the other. -/
theorem exists_append_of_spells {ps : List Piece} {ts us : List Token}
    (h : List.Forall₂ (Piece.Spells a) ps (ts ++ us)) :
    ∃ qs rs, ps = qs ++ rs ∧ List.Forall₂ (Piece.Spells a) qs ts ∧
      List.Forall₂ (Piece.Spells a) rs us :=
  ⟨_, _, (List.take_append_drop ts.length ps).symm, List.forall₂_take_append ps ts us h,
    List.forall₂_drop_append ps ts us h⟩

/-- A canonical pattern is a phrase, with the language of its syntax tree. -/
theorem isPhrase_of_spells {l : Level} (e : Canon l) {ps : List Piece}
    (h : List.Forall₂ (Piece.Spells a) ps e.tokens) :
    IsPhrase a l (join ps) (e.denote a.operating) := by
  induction e generalizing ps with
  | atom x =>
    obtain ⟨p, _, hp, hrest, rfl⟩ := List.forall₂_cons_right_iff.1 h
    obtain rfl := List.forall₂_nil_right_iff.1 hrest
    cases hp with
    | escaped c => exact .escaped a c
    | literal c hc => exact .literal ha hc
    | empty => exact .empty a
    | any => exact .any a
  | group e ih =>
    obtain ⟨_, inner, hopening, hinner, rfl⟩ := List.forall₂_cons_right_iff.1 h
    obtain ⟨qs, _, rfl, hqs, hlast⟩ := exists_append_of_spells hinner
    obtain ⟨_, _, hclosing, hrest, rfl⟩ := List.forall₂_cons_right_iff.1 hlast
    obtain rfl := List.forall₂_nil_right_iff.1 hrest
    cases hopening
    cases hclosing
    have hgroup := (ih hqs).grouped
    rw [← join_grouped] at hgroup
    exact hgroup
  | ofBase b ih => exact (ih h).asFactor
  | complement b ih =>
    obtain ⟨_, qs, hmark, hqs, rfl⟩ := List.forall₂_cons_right_iff.1 h
    cases hmark
    exact (ih hqs).negated
  | star f ih =>
    obtain ⟨qs, _, rfl, hqs, hlast⟩ := exists_append_of_spells h
    obtain ⟨_, _, hmark, hrest, rfl⟩ := List.forall₂_cons_right_iff.1 hlast
    obtain rfl := List.forall₂_nil_right_iff.1 hrest
    cases hmark
    rw [join_append]
    exact (ih hqs).starred (j := 1) (le_refl 1)
  | ofFactor f ih => exact (ih h).asTerm
  | concat f t ihf iht =>
    obtain ⟨qs, _, rfl, hqs, hrest⟩ := exists_append_of_spells h
    obtain ⟨_, rs, hmark, hrs, rfl⟩ := List.forall₂_cons_right_iff.1 hrest
    cases hmark
    rw [join_append]
    exact (ihf hqs).concat_marked (iht hrs)
  | ofTerm t ih => exact (ih h).ofTerm
  | union t e iht ihe =>
    obtain ⟨qs, _, rfl, hqs, hrest⟩ := exists_append_of_spells h
    obtain ⟨_, rs, hmark, hrs, rfl⟩ := List.forall₂_cons_right_iff.1 hrest
    cases hmark
    rw [join_append]
    exact (iht hqs).union (ihe hrs)

/-- The canonical form of a phrase has its language. -/
theorem IsPhrase.exists_value {t : Text} {L : Language Symbol} (h : IsPhrase a .expr t L)
    (hne : t ≠ []) :
    ∃ c, canonical a t = .ok c ∧ (Program.ofText a c).value a.operating [] = some [L] := by
  obtain ⟨qs, hexpands, hqs, hr⟩ := h
  obtain ⟨e, hspells, rfl⟩ := hr.spelling
  exact ⟨_, canonical_of_expands hexpands (SelfContained.complete hqs) hne,
    Generator.value_of_spells ha.operatorsAndMarks ⟨_, rfl, hspells⟩ a.operating⟩

/-- There is an automaton for every phrase. -/
theorem IsPhrase.generate {t : Text} {L : Language Symbol} (h : IsPhrase a .expr t L)
    (hne : t ≠ []) (caching transitionCaching : Bool) :
    ∃ g h, (Generator.new a caching transitionCaching).generate t = (g, .ok h) ∧
      ∀ w, (g.accepts h w).2 = true ↔ w ∈ L := by
  obtain ⟨c, hc, hvalue⟩ := h.exists_value ha hne
  obtain ⟨g, h, hgenerate, hrecognizes⟩ :=
    Generator.generate_of_value (g := Generator.new a caching transitionCaching) rfl hc rfl hvalue
  exact ⟨g, h, hgenerate, hrecognizes.accepts_iff⟩

end

end RegexAutomata
