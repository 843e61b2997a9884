/-
Mistakes that are always reported.

A pattern may have a character that is no literal, or a negation of nothing, anywhere.  None of the
passes that rewrite the pattern hides such a mistake (`remains_bare`, `remains_stranded`), so its
canonical form cannot be read or has a token at the wrong place, and there is no automaton
(`Generator.generate_mistake`).  What the passes leave out on purpose can hide one: pairs of
negations, the ends of a range, and what is repeated no times (`Generator.generate_despite_fault`).
-/
import RegexAutomata.Proofs.Compile.Memories
import RegexAutomata.Proofs.Compile.Negation
import RegexAutomata.Proofs.Pattern.Remains

namespace RegexAutomata

open Piece

/-! ### Canonical pieces -/

section

variable {p q : Piece} {ps qs : List Piece}

theorem mem_joinOperands (h : p ∈ ps) : p ∈ joinOperands ps := by
  fun_induction joinOperands ps with
  | case1 => exact h
  | case2 q => exact h
  | case3 q r rest hqr ih =>
    rcases List.mem_cons.1 h with rfl | h
    · exact List.mem_cons_self ..
    · exact List.mem_cons_of_mem _ (List.mem_cons_of_mem _ (ih h))
  | case4 q r rest hqr ih =>
    rcases List.mem_cons.1 h with rfl | h
    · exact List.mem_cons_self ..
    · exact List.mem_cons_of_mem _ (ih h)

/-- The passes drop nothing but negations. -/
theorem mem_canonicalPieces (hp : p ≠ bare '!') (h : p ∈ ps) : p ∈ canonicalPieces ps := by
  obtain ⟨before, after, rfl⟩ := List.append_of_mem h
  rw [canonicalPieces, cancelNegations_append_cons hp]
  exact mem_joinOperands (List.mem_append_right _ (List.mem_cons_self ..))

theorem canonicalPieces_head? (hp : p ≠ bare '!') (ps : List Piece) :
    (canonicalPieces (p :: ps)).head? = some p := by
  rw [canonicalPieces, cancelNegations_cons hp]
  obtain ⟨qs, hqs⟩ := joinOperands_cons p (cancelNegations ps)
  rw [hqs]
  rfl

/-- What comes later does not depend on what comes first, unless a pair of negations is split. -/
theorem exists_canonicalPieces_append (hps : ps.getLast? ≠ some (bare '!'))
    (hqs : cancelNegations qs ≠ []) :
    ∃ front, canonicalPieces (ps ++ qs) = front ++ canonicalPieces qs := by
  have hjoin : ∀ rs, ∃ front, joinOperands (rs ++ cancelNegations qs) =
      front ++ joinOperands (cancelNegations qs) := by
    intro rs
    obtain ⟨q, others, hq⟩ := List.exists_cons_of_ne_nil hqs
    rcases List.eq_nil_or_concat rs with rfl | ⟨init, r, rfl⟩
    · exact ⟨[], rfl⟩
    · refine ⟨joinOperands (init ++ [r]) ++ separator r q, ?_⟩
      rw [hq, List.concat_eq_append, List.append_assoc, List.append_assoc]
      exact joinOperands_append init r q others
  rcases List.eq_nil_or_concat ps with rfl | ⟨init, p, rfl⟩
  · exact ⟨[], rfl⟩
  · have hp : p ≠ bare '!' := by
      rintro rfl
      refine hps ?_
      rw [List.concat_eq_append]
      exact List.getLast?_concat
    obtain ⟨front, hfront⟩ := hjoin (cancelNegations init ++ [p])
    refine ⟨front, ?_⟩
    rw [canonicalPieces, List.concat_eq_append, List.append_assoc, List.singleton_append,
      cancelNegations_append_cons hp, ← List.singleton_append, ← List.append_assoc, hfront]
    rfl

/-- One of the negations is left, and no operand behind it. -/
theorem Stranded.canonicalPieces (h : Stranded qs) :
    ∃ front back, canonicalPieces qs = front ++ bare '!' :: back ∧
      ∀ q ∈ back.head?, ∃ f ∈ followers, q = bare f := by
  obtain ⟨front, k, back, rfl, hk, hfront, hback⟩ := h
  have hne : ∀ q ∈ back.head?, q ≠ bare '!' := by
    intro q hq
    obtain ⟨f, hf, rfl⟩ := hback q hq
    rintro heq
    rw [bare.inj heq] at hf
    exact absurd hf (by decide)
  have hmarks := canonicalPieces_replicate_append hne k
  rw [if_pos hk] at hmarks
  have hcancel : cancelNegations (List.replicate k (bare '!') ++ back) ≠ [] := by
    intro hnil
    rw [RegexAutomata.canonicalPieces, hnil] at hmarks
    cases hmarks
  obtain ⟨front', hfront'⟩ := exists_canonicalPieces_append hfront hcancel
  refine ⟨front', RegexAutomata.canonicalPieces back, by rw [hfront', hmarks], ?_⟩
  cases back with
  | nil => exact fun _ hq => by cases hq
  | cons q back =>
    rw [canonicalPieces_head? (hne q rfl)]
    exact hback

end

/-! ### Tokens -/

section

variable {a : Alphabet} {ps front back : List Piece} {ts : List Token} {c : Char}

theorem spells_operator (ha : a.Lacks operatorChars) {o : Operator} {t : Token}
    (h : Piece.Spells a (bare o.char) t) : t = .op o := by
  generalize hc : o.char = c at h
  have hmark : isSpecial c = false ∧ c ∈ operatorChars := by
    rw [← hc]
    cases o <;> decide
  cases h with
  | literal c h =>
    rw [ha c hmark.2] at h
    cases h
  | empty => cases hmark.1
  | any => cases hmark.1
  | op o' =>
    have ho := congrArg Operator.ofChar? hc
    rw [ofChar?_char, ofChar?_char] at ho
    cases ho
    rfl

/-- Behind a negation there must be the start of an operand. -/
theorem wellPlaced_of_spells (ha : a.Lacks operatorChars) {place : Place}
    (h : List.Forall₂ (Piece.Spells a) (front ++ bare '!' :: back) ts) (hts : WellPlaced place ts) :
    ∃ us, List.Forall₂ (Piece.Spells a) back us ∧ WellPlaced .negated us := by
  induction front generalizing place ts with
  | nil =>
    obtain _ | ⟨hmark, hback⟩ := h
    obtain rfl := spells_operator (o := .complement) ha hmark
    exact ⟨_, hback, hts.2⟩
  | cons p front ih =>
    obtain _ | ⟨_, hfront⟩ := h
    exact ih hfront hts.2

theorem not_wellPlaced_follower (ha : a.Lacks operatorChars)
    (h : List.Forall₂ (Piece.Spells a) back ts)
    (hback : ∀ q ∈ back.head?, ∃ f ∈ followers, q = bare f) : ¬ WellPlaced .negated ts := by
  intro hts
  cases h with
  | nil => cases hts
  | @cons q t _ _ hq _ =>
    obtain ⟨f, hf, rfl⟩ := hback q rfl
    obtain ⟨o, rfl, ho⟩ : ∃ o : Operator, o.char = f ∧ Place.negated.admits (.op o) = false := by
      simp only [followers, List.mem_cons, List.not_mem_nil, or_false] at hf
      rcases hf with rfl | rfl | rfl | rfl
      · exact ⟨.closing, rfl, rfl⟩
      · exact ⟨.union, rfl, rfl⟩
      · exact ⟨.concat, rfl, rfl⟩
      · exact ⟨.star, rfl, rfl⟩
    obtain rfl := spells_operator ha hq
    rw [WellPlaced, ho] at hts
    exact absurd hts.1 (by decide)

/-- A text with a negation of nothing is not derivable. -/
theorem not_derivable_of_stranded (ha : a.Lacks operatorChars) {t : Text}
    (h : split t = front ++ bare '!' :: back)
    (hback : ∀ q ∈ back.head?, ∃ f ∈ followers, q = bare f) : ¬ Derivable a t := by
  rintro ⟨hstop, hderivable⟩
  have hspells := spells_of_scanFrom hstop
  rw [h] at hspells
  obtain ⟨us, hus, hplaced⟩ := wellPlaced_of_spells ha hspells (exists_tokens_eq_iff.1 hderivable).1
  exact not_wellPlaced_follower ha hus hback hplaced

end

/-! ### Mistakes -/

/-- The second list of elements cannot be part of a pattern, where it stands between the other
two. -/
inductive Mistake (a : Alphabet) (before : List Element) :
    List Element → List Element → Prop
  /-- A character that is neither in the alphabet nor reserved, and is no end of a range. -/
  | character {c : Char} {after : List Element} (hc : a.hasChar c = false)
    (hreserved : isReserved c = false) (hbefore : before.getLast? ≠ some (.bare '-'))
    (hafter : after.head? ≠ some (.bare '-')) : Mistake a before [.bare c] after
  /-- An odd number of negations, neither more nor fewer, with no operand behind them. -/
  | negations {k : Nat} {after : List Element} (hk : Odd k)
    (hbefore : before.getLast? ≠ some (.bare '!'))
    (hafter : ∀ e ∈ after.head?, ∃ f ∈ followers, e = .bare f) :
    Mistake a before (List.replicate k (.bare '!')) after

section

variable {a : Alphabet} {before mistake after : List Element} {p : Text}

/-- A mistake is still there in the canonical form. -/
theorem Mistake.not_derivable (h : Mistake a before mistake after)
    (ha : a.Lacks (operatorChars ++ shorthandChars ++ specialChars))
    (hp : elements p = before ++ (mistake ++ after)) (hkept : ¬ Dropped (before ++ mistake) after)
    {c : Text} (hc : canonical a p = .ok c) : ¬ Derivable a c := by
  have hlacks : a.Lacks operatorChars := ha.operators
  have hne : p ≠ [] := by
    rintro rfl
    rw [elements] at hp
    have hmistake := (List.append_eq_nil_iff.1 (List.append_eq_nil_iff.1 hp.symm).2).1
    cases h with
    | character => cases hmistake
    | negations hk =>
      exact absurd ((List.replicate_eq_nil_iff _).1 hmistake) hk.pos.ne'
  obtain ⟨qs, hqs, hexpands, rfl⟩ := expands_of_canonical hne hc
  have hsplit := split_join_canonicalPieces hqs
  cases h with
  | @character d _ hd hreserved hbefore hafter =>
    have hmem := remains_bare ha hqs hexpands.expand_eq hp hreserved hbefore hafter hkept
    have hnone := hreserved
    simp only [isReserved, Bool.or_eq_false_iff] at hnone
    refine not_derivable_of_bare hd hnone.1.1 hnone.2 ?_
    rw [hsplit]
    refine mem_canonicalPieces ?_ hmem
    intro heq
    rw [bare.inj heq] at hreserved
    cases hreserved
  | negations hk hbefore hafter =>
    have hstranded := remains_stranded ha hqs hexpands.expand_eq hp hk hbefore hafter hkept
    obtain ⟨front, back, heq, hback⟩ := hstranded.canonicalPieces
    exact not_derivable_of_stranded hlacks (hsplit.trans heq) hback

namespace Generator

/-- A pattern with a mistake is refused, unless a repetition drops the mistake.  The error is the
pattern's, and the same from all generators for the alphabet, whatever they have done before. -/
theorem generate_mistake (ha : a.Lacks (operatorChars ++ shorthandChars ++ specialChars))
    (hp : elements p = before ++ (mistake ++ after)) (hmistake : Mistake a before mistake after)
    (hkept : ¬ Dropped (before ++ mistake) after) :
    ∃ e, ∀ g : Generator, g.Consistent → g.alphabet = a →
      (g.generate p).2 = .error (.pattern e) := by
  have hlacks : a.Lacks operatorChars :=
    (Alphabet.Lacks.append.1 (Alphabet.Lacks.append.1 ha).1).1
  cases hc : canonical a p with
  | error e =>
    refine ⟨e, ?_⟩
    rintro g hg rfl
    exact (hg.gives_error hc).2
  | ok c =>
    have hvalue : ∀ L, (Program.ofText a c).value a.operating [] ≠ some [L] := fun L hL =>
      hmistake.not_derivable ha hp hkept hc (derivable_of_value hlacks hc hL)
    obtain ⟨e, he⟩ := gives_no_language hc hvalue
    exact ⟨e, fun g hg hga => (he g hg hga).2⟩

/-- A negation of nothing in a group that is repeated. -/
theorem generate_mistake_repeated :
    Alphabet.standard.Lacks (operatorChars ++ shorthandChars ++ specialChars) ∧
      elements ['b', '(', 'a', '|', '!', '!', '!', ')', '[', '0', ',', '2', ']'] =
        [.bare 'b', .bare '(', .bare 'a', .bare '|'] ++
          (List.replicate 3 (.bare '!') ++ [.bare ')', .bounds ⟨some 0, some 2⟩]) ∧
      ∃ e, (standard.generate ['b', '(', 'a', '|', '!', '!', '!', ')', '[', '0', ',', '2', ']']).2 =
        .error (.pattern e) := by
  have hlacks : Alphabet.standard.Lacks (operatorChars ++ shorthandChars ++ specialChars) := by
    decide +kernel
  have helements : elements ['b', '(', 'a', '|', '!', '!', '!', ')', '[', '0', ',', '2', ']'] =
      [.bare 'b', .bare '(', .bare 'a', .bare '|'] ++
        (List.replicate 3 (.bare '!') ++ [.bare ')', .bounds ⟨some 0, some 2⟩]) := by
    decide +kernel
  have hmistake : Mistake .standard [.bare 'b', .bare '(', .bare 'a', .bare '|']
      (List.replicate 3 (.bare '!')) [.bare ')', .bounds ⟨some 0, some 2⟩] := by
    refine .negations (by decide) (by decide) ?_
    rintro _ ⟨⟩
    exact ⟨')', by decide, rfl⟩
  have hkept : ¬ Dropped ([.bare 'b', .bare '(', .bare 'a', .bare '|'] ++
      List.replicate 3 (.bare '!')) [.bare ')', .bounds ⟨some 0, some 2⟩] := by
    rintro ⟨inside, bounds, rest, k, hafter, ⟨_, hbounds⟩, _⟩
    have hmem : Element.bounds bounds ∈ [.bare ')', .bounds ⟨some 0, some 2⟩] := by
      rw [hafter]
      exact List.mem_append_right _ (List.mem_cons_self ..)
    simp only [List.mem_cons, List.not_mem_nil, or_false, reduceCtorEq, false_or,
      Element.bounds.injEq] at hmem
    rw [hmem] at hbounds
    cases hbounds
  obtain ⟨e, he⟩ := generate_mistake hlacks helements hmistake hkept
  exact ⟨hlacks, helements, e, he standard (consistent_new .standard true true) rfl⟩

/-- Faults that the passes leave out on purpose.  Two negations cancel each other, an end of a range
need not be in the alphabet, and of a repetition that allows no copy nothing is left. -/
theorem generate_despite_fault :
    (elements ['a', '!', '!'] = [.bare 'a', .bare '!', .bare '!'] ∧
        ∃ g h, standard.generate ['a', '!', '!'] = (g, .ok h)) ∧
      (Alphabet.standard.hasChar 'é' = false ∧ isReserved 'é' = false) ∧
      (elements ['é', '-', 'é'] = [.bare 'é', .bare '-', .bare 'é'] ∧
        ∃ g h, standard.generate ['é', '-', 'é'] = (g, .ok h)) ∧
      (elements ['é', '[', ',', '0', ']'] = [.bare 'é', .bounds ⟨none, some 0⟩] ∧
        ∃ g h, standard.generate ['é', '[', ',', '0', ']'] = (g, .ok h)) := by
  refine ⟨⟨by decide +kernel, ?_⟩, ⟨by decide +kernel, by decide⟩, ⟨by decide +kernel, ?_⟩,
    ⟨by decide +kernel, ?_⟩⟩
  · have hcanonical : canonical .standard ['a', '!', '!'] = .ok ['a'] := by decide +kernel
    have hprogram : Program.ofText .standard ['a'] = ⟨[.push (.one "a")], none⟩ := by
      decide +kernel
    obtain ⟨g, h, hgenerate, _⟩ := generate_of_program hcanonical hprogram rfl
    exact ⟨g, h, hgenerate⟩
  · have hcanonical : canonical .standard ['é', '-', 'é'] =
        .ok ['(', '(', '/', 'é', ')', ')'] := by
      decide +kernel
    have hprogram : Program.ofText .standard ['(', '(', '/', 'é', ')', ')'] =
        ⟨[.push (.one "é")], none⟩ := by
      decide +kernel
    obtain ⟨g, h, hgenerate, _⟩ := generate_of_program hcanonical hprogram rfl
    exact ⟨g, h, hgenerate⟩
  · have hcanonical : canonical .standard ['é', '[', ',', '0', ']'] = .ok ['(', '#', ')'] := by
      decide +kernel
    have hprogram : Program.ofText .standard ['(', '#', ')'] = ⟨[.push .empty], none⟩ := by
      decide +kernel
    obtain ⟨g, h, hgenerate, _⟩ := generate_of_program hcanonical hprogram rfl
    exact ⟨g, h, hgenerate⟩

end Generator

end

end RegexAutomata
