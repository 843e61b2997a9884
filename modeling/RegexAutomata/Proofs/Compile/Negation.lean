/-
Negated patterns.

A pattern in parentheses is evaluated as if it stood alone: whatever waits outside the parentheses
goes on waiting, and whatever lies on the stack stays there (`valueFrom_enclosed`).  So a negation
before the parentheses gives the complement over the symbols that the engine can see
(`Generator.accepts_negated`), if the pattern can be compiled on its own.
-/
import RegexAutomata.Proofs.Compile.Acceptance
import RegexAutomata.Proofs.Pattern.Enclosing

open scoped Computability

namespace RegexAutomata

open Piece

/-! ### Evaluation in context -/

section

variable {symbols : List Symbol} {Ls Ms : List (Language Symbol)} {ws : List Operator}

/-- What lies deeper on the stack stays there. -/
theorem Operator.value_append {o : Operator} (h : o.value symbols Ls = some Ms)
    (Ks : List (Language Symbol)) : o.value symbols (Ls ++ Ks) = some (Ms ++ Ks) := by
  unfold Operator.value at h
  split at h
  all_goals first
    | (cases h; rfl)
    | cases h

theorem valueOfOperators_append {os : List Operator}
    (h : valueOfOperators symbols os Ls = some Ms) (Ks : List (Language Symbol)) :
    valueOfOperators symbols os (Ls ++ Ks) = some (Ms ++ Ks) := by
  induction os generalizing Ls with
  | nil =>
    cases h
    rfl
  | cons o os ih =>
    obtain ⟨Ns, ho, hos⟩ := Option.bind_eq_some_iff.1 h
    rw [valueOfOperators, Operator.value_append ho]
    exact ih hos

/-- An opening parenthesis that waits hides what waits before it. -/
theorem takeWhile_append_opening {p : Operator → Bool} (hp : p .opening = false)
    (ws outer : List Operator) :
    (ws ++ .opening :: outer).takeWhile p = ws.takeWhile p ∧
      (ws ++ .opening :: outer).dropWhile p = ws.dropWhile p ++ .opening :: outer := by
  induction ws with
  | nil =>
    exact ⟨List.takeWhile_cons_of_neg (by rw [hp]; decide),
      List.dropWhile_cons_of_neg (by rw [hp]; decide)⟩
  | cons w ws ih =>
    rw [List.cons_append, List.takeWhile_cons, List.takeWhile_cons, List.dropWhile_cons,
      List.dropWhile_cons]
    split
    · exact ⟨congrArg _ ih.1, ih.2⟩
    · exact ⟨rfl, rfl⟩

/-- Tokens that leave languages on an empty stack leave them on any other stack as well, if they
stand in parentheses. -/
theorem valueFrom_enclosed {ts : List Token} (h : valueFrom symbols ws Ls ts = some Ms)
    (outer : List Operator) (Ks : List (Language Symbol)) (rest : List Token) :
    valueFrom symbols (ws ++ .opening :: outer) (Ls ++ Ks) (ts ++ .op .closing :: rest) =
      valueFrom symbols outer (Ms ++ Ks) rest := by
  induction ts generalizing ws Ls with
  | nil =>
    obtain ⟨htake, hdrop⟩ := takeWhile_append_opening (p := (· != .opening)) rfl ws outer
    obtain ⟨hnone, hos⟩ := valueFrom_nil_eq_some h
    rw [hnone] at hdrop
    show valueFrom symbols _ _ (.op .closing :: rest) = _
    simp only [valueFrom, htake, hdrop, List.nil_append, valueOfOperators_append hos,
      Option.bind_some]
  | cons t ts ih =>
    cases t with
    | atom a => exact ih h
    | op o =>
      by_cases hclosing : o = .closing
      · subst hclosing
        obtain ⟨htake, hdrop⟩ := takeWhile_append_opening (p := (· != .opening)) rfl ws outer
        obtain ⟨inner, Ns, hgroup, hos, hts⟩ := valueFrom_closing_eq_some h
        rw [hgroup] at hdrop
        rw [List.cons_append]
        simp only [valueFrom, htake, hdrop, List.cons_append, valueOfOperators_append hos,
          Option.bind_some]
        exact ih hts
      · obtain ⟨htake, hdrop⟩ :=
          takeWhile_append_opening (p := (·.precedes o)) (by cases o <;> rfl) ws outer
        rw [valueFrom_op hclosing] at h
        obtain ⟨Ns, hos, hts⟩ := Option.bind_eq_some_iff.1 h
        rw [List.cons_append, valueFrom_op hclosing, htake, hdrop, valueOfOperators_append hos]
        exact ih hts

/-- The value of a group is the value of what it encloses, also behind a negation. -/
theorem valueFrom_grouped {ts : List Token} {L : Language Symbol}
    (h : valueFrom symbols [] [] ts = some [L]) :
    valueFrom symbols [] [] (.op .opening :: (ts ++ [.op .closing])) = some [L] ∧
      valueFrom symbols [] [] (.op .complement :: .op .opening :: (ts ++ [.op .closing])) =
        some [complementIn symbols L] := by
  refine ⟨valueFrom_enclosed h [] [] [], ?_⟩
  calc valueFrom symbols [] [] (.op .complement :: .op .opening :: (ts ++ [.op .closing]))
      = valueFrom symbols ([] ++ [.opening, .complement]) ([] ++ []) (ts ++ [.op .closing]) := rfl
    _ = valueFrom symbols [.complement] [L] [] := valueFrom_enclosed h [.complement] [] []
    _ = some [complementIn symbols L] := rfl

end

/-! ### Negated groups -/

/-- A pattern that has a language keeps it in parentheses, and a negation before them gives the
complement. -/
theorem value_grouped {a : Alphabet} (ha : a.Lacks ['!', '(', ')']) {symbols : List Symbol}
    {c : Text} {L : Language Symbol}
    (h : (Program.ofText a c).value symbols [] = some [L]) :
    (Program.ofText a ('(' :: c ++ [')'])).value symbols [] = some [L] ∧
      (Program.ofText a ('!' :: ('(' :: c ++ [')']))).value symbols [] =
        some [complementIn symbols L] := by
  have hparentheses : a.Lacks ['(', ')'] := fun c hc => ha c (List.mem_cons_of_mem _ hc)
  have hvalue : ∀ {t : Text} {ts : List Token}, ReadsAs a t ts →
      (Program.ofText a t).value symbols [] = valueFrom symbols [] [] ts := by
    intro t ts ht
    obtain ⟨hstop, htokens⟩ : (scan a t).stop = none ∧ (scan a t).tokens.map (·.2) = ts := ht 0
    rw [Program.value_ofText, if_pos hstop, htokens]
  rw [Program.value_ofText] at h
  split at h
  · rename_i hstop
    obtain ⟨hgroup, hnegation⟩ := valueFrom_grouped h
    have hreads := ReadsAs.grouped hparentheses hstop
    have hreads' := hreads.operator .complement (ha _ (by decide))
    exact ⟨(hvalue hreads).trans hgroup, (hvalue hreads').trans hnegation⟩
  · cases h

namespace Generator

/-- A pattern whose canonical form has a program for one language. -/
theorem generate_of_program {a : Alphabet} {p c : Text} {is : List Instr} {L : Language Symbol}
    (hc : canonical a p = .ok c) (hprogram : Program.ofText a c = ⟨is, none⟩)
    (hvalue : valueOf a.operating is [] = some [L]) :
    ∃ g h, (new a true true).generate p = (g, .ok h) ∧
      ∀ w, (g.accepts h w).2 = true ↔ w ∈ L := by
  have hL : (Program.ofText a c).value a.operating [] = some [L] := by
    rw [hprogram]
    exact hvalue
  obtain ⟨g, h, hgenerate, hr⟩ :=
    generate_of_value (g := new a true true) rfl hc rfl hL
  exact ⟨g, h, hgenerate, hr.accepts_iff⟩

/-- If a pattern can be compiled on its own, then so can the pattern in parentheses, and with a
negation before them.  Of the sequences of symbols that the engine can see, one of the two
automata accepts those that the other one rejects. -/
theorem accepts_negated (a : Alphabet) (caching transitionCaching : Bool)
    (ha : a.Lacks ['!', '(', ')']) (p : Text) (hne : p ≠ [])
    (hp : ∃ g h, (new a caching transitionCaching).generate p = (g, .ok h)) :
    ∃ g h g' h',
      (new a caching transitionCaching).generate ('(' :: p ++ [')']) = (g, .ok h) ∧
        (new a caching transitionCaching).generate ('!' :: '(' :: p ++ [')']) = (g', .ok h') ∧
        ∀ w, (∀ s ∈ w, s ∈ a.operating) →
          ((g'.accepts h' w).2 = true ↔ (g.accepts h w).2 = false) := by
  obtain ⟨_, _, hgenerate⟩ := hp
  obtain ⟨c, L, hc, hvalue⟩ := value_of_generate hgenerate
  obtain ⟨qs, hqs, hexpands, rfl⟩ := expands_of_canonical hne hc
  obtain ⟨hc₁, hc₂⟩ := canonical_grouped hexpands hqs
  obtain ⟨hvalue₁, hvalue₂⟩ := value_grouped ha hvalue
  obtain ⟨g, h, hgroup, hr⟩ :=
    generate_of_value (g := new a caching transitionCaching) rfl hc₁ rfl hvalue₁
  obtain ⟨g', h', hnegation, hr'⟩ :=
    generate_of_value (g := new a caching transitionCaching) rfl hc₂ rfl hvalue₂
  refine ⟨g, h, g', h', hgroup, hnegation, fun w hw => ?_⟩
  rw [hr'.accepts_iff, mem_complementIn, ← Bool.not_eq_true, hr.accepts_iff]
  exact and_iff_right hw

theorem accepts_negated_starred :
    (Alphabet.ofText ['a']).Lacks ['!', '(', ')'] ∧
      (∃ g h, (new (.ofText ['a']) true true).generate ['!', 'a', '*', '+'] = (g, .ok h)) ∧
      ∃ g h g' h',
        (new (.ofText ['a']) true true).generate ['(', '!', 'a', '*', '+', ')'] = (g, .ok h) ∧
          (new (.ofText ['a']) true true).generate ['!', '(', '!', 'a', '*', '+', ')'] =
            (g', .ok h') ∧
          ((g'.accepts h' ["a", "("]).2 = true ↔ (g.accepts h ["a", "("]).2 = false) := by
  have hlacks : (Alphabet.ofText ['a']).Lacks ['!', '(', ')'] := by decide
  have hcanonical : canonical (.ofText ['a']) ['!', 'a', '*', '+'] =
      .ok ['!', '(', 'a', '*', '&', 'a', '*', '*', ')'] := by
    decide +kernel
  have hprogram : Program.ofText (.ofText ['a']) ['!', '(', 'a', '*', '&', 'a', '*', '*', ')'] =
      ⟨[.push (.one "a"), .apply 3 .star, .push (.one "a"), .apply 7 .star, .apply 6 .star,
        .apply 4 .concat, .apply 0 .complement], none⟩ := by
    decide +kernel
  obtain ⟨g₀, h₀, hgenerate, _⟩ := generate_of_program hcanonical hprogram rfl
  obtain ⟨g, h, g', h', hgroup, hnegation, haccepts⟩ := accepts_negated (.ofText ['a']) true true
    hlacks ['!', 'a', '*', '+'] (List.cons_ne_nil _ _) ⟨g₀, h₀, hgenerate⟩
  refine ⟨hlacks, ⟨g₀, h₀, hgenerate⟩, g, h, g', h', hgroup, hnegation, haccepts _ ?_⟩
  intro s hs
  rw [Alphabet.mem_operating]
  revert s
  decide

/-- Neither of two automata accepts the sequence. -/
theorem both_reject {a : Alphabet} {p p' : Text} (c c' : Text) (is is' : List Instr)
    {L L' : Language Symbol} (hc : canonical a p = .ok c) (hc' : canonical a p' = .ok c')
    (hprogram : Program.ofText a c = ⟨is, none⟩) (hprogram' : Program.ofText a c' = ⟨is', none⟩)
    (hvalue : valueOf a.operating is [] = some [L])
    (hvalue' : valueOf a.operating is' [] = some [L']) {w : List Symbol} (hw : w ∉ L)
    (hw' : w ∉ L') :
    ∃ g h g' h', (new a true true).generate p = (g, .ok h) ∧
      (new a true true).generate p' = (g', .ok h') ∧
      (g.accepts h w).2 = false ∧ (g'.accepts h' w).2 = false := by
  obtain ⟨g, h, hgenerate, haccepts⟩ := generate_of_program hc hprogram hvalue
  obtain ⟨g', h', hgenerate', haccepts'⟩ := generate_of_program hc' hprogram' hvalue'
  exact ⟨g, h, g', h', hgenerate, hgenerate',
    Bool.eq_false_iff.2 fun haccept => hw ((haccepts _).1 haccept),
    Bool.eq_false_iff.2 fun haccept => hw' ((haccepts' _).1 haccept)⟩

/-- Three ways in which a pattern in parentheses and its negation can fail to be complementary.  The
parentheses need not belong together; a literal need not be a symbol that the engine can see; and
the alphabet can have the negation itself. -/
theorem negation_not_complementary :
    (∃ g h g' h', standard.generate ('(' :: ['a', ')', '(', 'b'] ++ [')']) = (g, .ok h) ∧
        standard.generate ('!' :: '(' :: ['a', ')', '(', 'b'] ++ [')']) = (g', .ok h') ∧
        (g.accepts h []).2 = false ∧ (g'.accepts h' []).2 = false) ∧
      (∃ g h g' h', standard.generate ('(' :: ['/', 'é'] ++ [')']) = (g, .ok h) ∧
        standard.generate ('!' :: '(' :: ['/', 'é'] ++ [')']) = (g', .ok h') ∧
        (g.accepts h ["é", "é"]).2 = false ∧ (g'.accepts h' ["é", "é"]).2 = false) ∧
      (∃ g h, (new (.ofText ['!', 'a']) true true).generate ('(' :: ['a'] ++ [')']) = (g, .ok h)) ∧
      ∃ g e, (new (.ofText ['!', 'a']) true true).generate ('!' :: '(' :: ['a'] ++ [')']) =
        (g, .error (.pattern e)) := by
  -- a sequence that ends in `b` is not empty
  have hends : ∀ M : Language Symbol, [] ∉ M * ({["b"]} : Language Symbol) := by
    rintro M ⟨x, _, y, hy, hxy⟩
    obtain rfl : y = ["b"] := hy
    simp at hxy
  have hunseen : "é" ∉ Alphabet.standard.operating := by
    rw [Alphabet.mem_operating, ← List.mem_append]
    decide +kernel
  refine ⟨?_, ?_, ?_, ?_⟩
  · exact both_reject ['(', 'a', ')', '&', '(', 'b', ')'] ['!', '(', 'a', ')', '&', '(', 'b', ')']
      [.push (.one "a"), .push (.one "b"), .apply 3 .concat]
      [.push (.one "a"), .apply 0 .complement, .push (.one "b"), .apply 4 .concat]
      (by decide +kernel) (by decide +kernel) (by decide +kernel) (by decide +kernel) rfl rfl
      (hends _) (hends _)
  · refine both_reject ['(', '(', '/', 'é', ')', ')'] ['!', '(', '(', '/', 'é', ')', ')']
      [.push (.one "é")] [.push (.one "é"), .apply 0 .complement]
      (by decide +kernel) (by decide +kernel) (by decide +kernel) (by decide +kernel) rfl rfl
      ?_ ?_
    · show ["é", "é"] ≠ ["é"]
      decide
    · exact fun hw => hunseen (hw.1 "é" (List.mem_cons_self ..))
  · have hprogram : Program.ofText (.ofText ['!', 'a']) ['(', 'a', ')'] =
        ⟨[.push (.one "a")], none⟩ := by
      decide +kernel
    have hcanonical : canonical (.ofText ['!', 'a']) ['(', 'a', ')'] = .ok ['(', 'a', ')'] := by
      decide +kernel
    obtain ⟨g, h, hgenerate, _⟩ := generate_of_program hcanonical hprogram rfl
    exact ⟨g, h, hgenerate⟩
  · -- the negation is a literal, and there is no operator between it and the group
    have hprogram : Program.ofText (.ofText ['!', 'a']) ['!', '(', 'a', ')'] =
        ⟨[.push (.one "!"), .push (.one "a")], none⟩ := by
      decide +kernel
    refine generate_of_no_value (g := new (.ofText ['!', 'a']) true true)
      (c := ['!', '(', 'a', ')']) rfl (by decide +kernel) rfl fun L hL => ?_
    have hL : (Program.ofText (.ofText ['!', 'a']) ['!', '(', 'a', ')']).value
      (Alphabet.ofText ['!', 'a']).operating [] = some [L] := hL
    rw [hprogram] at hL
    have hlength : some 2 = some 1 := congrArg (Option.map List.length) hL
    cases hlength

end Generator

end RegexAutomata
