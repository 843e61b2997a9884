/-
Literal phrases.

`escape` makes a pattern for one text and no other: a character that the alphabet lacks is put behind
an escape marker, and with or without one a character is a phrase on its own.  So a search for an
escaped phrase finds the lines that the phrase is part of, whatever characters it has.  The one
exception is the empty phrase.  On its own its pattern can be compiled, but in the parentheses of the
search there is nothing to match, and the search ends with an error.

* `isPhrase_escape` — the language of an escaped text, character by character;
* `isDivided_iff` — the lines of a text, told apart by what ends them;
* `Session.generate_escape` — the automaton of an escaped text;
* `Session.searchText_literal` — what a search for a literal phrase finds.
-/
import RegexAutomata.Proofs.Session.PhraseSearch

open scoped Computability

namespace RegexAutomata

/-! ### Escaped texts -/

/-- A symbol in front of the only word of a language. -/
theorem language_one_mul_singleton (s : Symbol) (w : List Symbol) :
    (Atom.one s).language * ({w} : Language Symbol) = {s :: w} :=
  Set.image2_singleton

section

variable {a : Alphabet} (ha : a.Lacks (operatorChars ++ shorthandChars ++ specialChars))

theorem escape_cons (a : Alphabet) (c : Char) (t : Text) :
    escape a (c :: t) = escape a [c] ++ escape a t := by
  simp [escape]

include ha

theorem isPhrase_escape_singleton (c : Char) :
    IsPhrase a .base (escape a [c]) (Atom.one (Symbol.ofChar c)).language := by
  by_cases hc : a.hasChar c = true
  · have hbare : escape a [c] = [c] := by simp [escape, hc]
    rw [hbare]
    exact .literal ha hc
  · have hpair : escape a [c] = [escapeMark, c] := by simp [escape, hc]
    rw [hpair]
    exact .escaped a c

/-- An escaped text is a phrase for the text and nothing else. -/
theorem isPhrase_escape {t : Text} (hne : t ≠ []) :
    IsPhrase a .term (escape a t) {Text.symbols t} := by
  induction t with
  | nil => exact absurd rfl hne
  | cons c t ih =>
    have hfirst := (isPhrase_escape_singleton ha c).asFactor
    cases t with
    | nil => exact hfirst.asTerm
    | cons d t =>
      have hrest := hfirst.concat (ih (List.cons_ne_nil d t))
      rw [language_one_mul_singleton, ← escape_cons] at hrest
      exact hrest

/-- The canonical form of an escaped text has the text and nothing else in its language. -/
theorem exists_value_escape (t : Text) :
    ∃ c, canonical a (escape a t) = .ok c ∧
      (Program.ofText a c).value a.operating [] = some [{Text.symbols t}] := by
  cases t with
  | nil =>
    -- the empty pattern is no phrase, but its canonical form is the mark of the empty string
    let e : Canon .expr := .ofTerm (.ofFactor (.ofBase (.atom .empty)))
    have hspells : Spells a [emptyMark] e.tokens := ⟨[.bare emptyMark], rfl, .cons .empty .nil⟩
    exact ⟨[emptyMark], rfl, Generator.value_of_spells ha.operatorsAndMarks hspells a.operating⟩
  | cons c t =>
    have hne : escape a (c :: t) ≠ [] := by
      by_cases hc : a.hasChar c = true <;> simp [escape, hc]
    exact (isPhrase_escape ha (List.cons_ne_nil c t)).ofTerm.exists_value ha hne

end

/-! ### Lines of a text -/

/-- The ways to end a line. -/
def lineEnds : List Text := [['\n'], ['\r'], ['\r', '\n']]

/-- The text consists of these lines and of what ends them.  A carriage return before a line feed
does not end a line on its own, and nothing needs to end the last line if there is something in
it. -/
inductive IsDivided : Text → List Text → Prop
  | nil : IsDivided [] []
  | last {line : Text} (hne : line ≠ []) (hline : ∀ c ∈ line, isLineEnd c = false) :
    IsDivided line [line]
  | cons {line ending rest : Text} {lines : List Text} (hline : ∀ c ∈ line, isLineEnd c = false)
    (hending : ending ∈ lineEnds) (hwhole : ending = ['\r'] → rest.head? ≠ some '\n')
    (hrest : IsDivided rest lines) : IsDivided (line ++ ending ++ rest) (line :: lines)

theorem linesFrom_cons {c : Char} (hc : isLineEnd c = false) (done rest : Text) :
    linesFrom done (c :: rest) = linesFrom (c :: done) rest := by
  rw [linesFrom.eq_def]
  split
  · rename_i h
    cases h
  · rename_i h
    cases h
    cases hc
  · rename_i h
    cases h
    rw [if_neg (by rw [hc]; decide)]

theorem linesFrom_append {line : Text} (hline : ∀ c ∈ line, isLineEnd c = false)
    (done rest : Text) : linesFrom done (line ++ rest) = linesFrom (line.reverse ++ done) rest := by
  induction line generalizing done with
  | nil => rfl
  | cons c line ih =>
    obtain ⟨hc, hline⟩ := List.forall_mem_cons.1 hline
    rw [List.cons_append, linesFrom_cons hc, ih hline, List.reverse_cons, List.append_assoc]
    rfl

theorem linesFrom_ending {ending rest : Text} (hending : ending ∈ lineEnds)
    (hwhole : ending = ['\r'] → rest.head? ≠ some '\n') (done : Text) :
    linesFrom done (ending ++ rest) = done.reverse :: linesFrom [] rest := by
  simp only [lineEnds, List.mem_cons, List.not_mem_nil, or_false] at hending
  rcases hending with rfl | rfl | rfl
  · rfl
  · -- what comes next must not make the carriage return the start of a longer end
    have hhead := hwhole rfl
    cases rest with
    | nil => rfl
    | cons c rest =>
      have hc : c ≠ '\n' := fun hc => hhead (congrArg some hc)
      rw [List.singleton_append, linesFrom.eq_def]
      split
      · rename_i h
        cases h
      · rename_i h
        cases h
        exact absurd rfl hc
      · rename_i h
        cases h
        rfl
  · rfl

/-- What is read of a text is divided, together with the start of a line that has been read before. -/
theorem isDivided_linesFrom {done t : Text} (hdone : ∀ c ∈ done, isLineEnd c = false) :
    IsDivided (done.reverse ++ t) (linesFrom done t) := by
  have hnil : ∀ c ∈ ([] : Text), isLineEnd c = false := by simp
  fun_induction linesFrom done t with
  | case1 done hempty =>
    rw [List.isEmpty_iff.1 hempty]
    exact .nil
  | case2 done hempty =>
    rw [List.append_nil]
    exact .last (by simpa using hempty) (by simpa using hdone)
  | case3 done rest ih =>
    have hline : ∀ c ∈ done.reverse, isLineEnd c = false := by simpa using hdone
    have hending : ['\r', '\n'] ∈ lineEnds := by decide
    have h := IsDivided.cons hline hending nofun (ih hnil)
    simpa using h
  | case4 done c rest hpair hend ih =>
    have hline : ∀ c ∈ done.reverse, isLineEnd c = false := by simpa using hdone
    have hc : c = '\n' ∨ c = '\r' := by simpa [isLineEnd] using hend
    have hending : [c] ∈ lineEnds := by rcases hc with rfl | rfl <;> decide
    -- the case of a carriage return before a line feed has been dealt with
    have hwhole : [c] = ['\r'] → rest.head? ≠ some '\n' := by
      rintro hc hhead
      cases rest with
      | nil => cases hhead
      | cons d rest =>
        cases hhead
        exact hpair rest (List.cons.inj hc).1 rfl
    have h := IsDivided.cons hline hending hwhole (ih hnil)
    simpa using h
  | case5 done c rest hpair hend ih =>
    have hc : isLineEnd c = false := Bool.eq_false_of_not_eq_true hend
    have h := ih (List.forall_mem_cons.2 ⟨hc, hdone⟩)
    simpa using h

/-- These are the lines that a text is read as, and there is no other way to divide it. -/
theorem isDivided_iff {t : Text} {lines : List Text} :
    IsDivided t lines ↔ lines = textLines t := by
  constructor
  · intro h
    induction h with
    | nil => rfl
    | @last line hne hline =>
      have h := linesFrom_append hline [] []
      rw [List.append_nil, List.append_nil] at h
      rw [textLines, h, linesFrom, if_neg (by simpa using hne), List.reverse_reverse]
    | @cons line ending rest lines hline hending hwhole _ ih =>
      rw [textLines, List.append_assoc, linesFrom_append hline, linesFrom_ending hending hwhole, ih]
      simp [textLines]
  · rintro rfl
    have hnil : ∀ c ∈ ([] : Text), isLineEnd c = false := by simp
    exact isDivided_linesFrom hnil

/-- What ends a line is not part of it. -/
theorem IsDivided.isLineEnd_eq_false {t : Text} {lines : List Text} (h : IsDivided t lines)
    {line : Text} (hmem : line ∈ lines) : ∀ c ∈ line, isLineEnd c = false := by
  induction h with
  | nil => cases hmem
  | last _ hline => exact List.mem_singleton.1 hmem ▸ hline
  | cons hline _ _ _ ih =>
    rcases List.mem_cons.1 hmem with rfl | hmem
    · exact hline
    · exact ih hmem

theorem isTrimmed_iff_eq {line l : Text} (hline : ∀ c ∈ line, isLineEnd c = false) :
    IsTrimmed line l ↔ l = line := by
  have hself : chomp line = line := by
    refine List.rdropWhile_eq_self_iff.2 fun hne => ?_
    rw [hline _ (List.getLast_mem hne)]
    decide
  rw [isTrimmed_iff, hself]

/-- The lines of a text are numbered as they are, for there is nothing to take off their ends. -/
theorem mem_numbered_of_isDivided {t l : Text} {lines : List Text} (h : IsDivided t lines)
    {n : Nat} : (n, l) ∈ numbered 1 lines ↔ 1 ≤ n ∧ lines[n - 1]? = some l := by
  rw [mem_numbered]
  refine and_congr_right fun _ => ⟨?_, fun hget => ⟨l, hget, ?_⟩⟩
  · rintro ⟨line, hget, htrimmed⟩
    have hline := h.isLineEnd_eq_false (List.mem_of_getElem? hget)
    rw [hget, (isTrimmed_iff_eq hline).1 htrimmed]
  · exact (isTrimmed_iff_eq (h.isLineEnd_eq_false (List.mem_of_getElem? hget))).2 rfl

/-! ### Searches -/

theorem symbols_injective : Function.Injective Text.symbols :=
  List.map_injective_iff.2 fun c d h => by simpa [Symbol.ofChar] using congrArg String.toList h

/-- A line has the word of a language of one word in it if the word's text is part of the line. -/
theorem symbols_mem_containing_singleton {t l : Text} :
    Text.symbols l ∈ containing {Text.symbols t} ↔ t <:+: l := by
  rw [symbols_mem_containing]
  constructor
  · rintro ⟨x, y, z, rfl, hy⟩
    rw [symbols_injective hy]
    exact ⟨x, z, rfl⟩
  · rintro ⟨x, z, rfl⟩
    exact ⟨x, t, z, rfl, rfl⟩

/-- What there is instead of lines if the phrase is empty. -/
def emptyPhraseError : PatternError :=
  ⟨.missingOperand '&', ".*&()&.*".toList, some 2⟩

namespace Generator

variable {g : Generator}

/-- With nothing in its parentheses, the wrapped phrase cannot be compiled. -/
theorem Consistent.searchText_nil (hg : g.Consistent) (halphabet : g.alphabet = .standard)
    (content : Text) : (g.searchText [] true content).2 = .error (.pattern emptyPhraseError) := by
  -- all consistent generators give the same answer, so any of them tells it
  obtain ⟨answer, hanswer⟩ := exists_answer .standard (wrapPhrase [])
  have hnew := (hanswer standard (consistent_new .standard true true) rfl).2
  have herror : (standard.generate (wrapPhrase [])).2 = .error (.pattern emptyPhraseError) := by
    decide +kernel
  have hgives := (hanswer g hg halphabet).2
  cases answer with
  | error e =>
    have hphrase : g.phrase [] true = (_, .error (.pattern emptyPhraseError)) :=
      Prod.ext rfl (hgives.trans (hnew.symm.trans herror))
    rw [searchText, hphrase]
  | ok L =>
    obtain ⟨h, hok, _⟩ := hnew
    cases hok.symm.trans herror

/-- Any other phrase is found in the lines that it is part of. -/
theorem Consistent.searchText_of_ne_nil (hg : g.Consistent)
    (ha : g.alphabet.Lacks (operatorChars ++ shorthandChars ++ specialChars)) {t : Text}
    (hne : t ≠ []) (content : Text) :
    ∃ found, (g.searchText t true content).2 = .ok found ∧
      found.Pairwise (fun m m' => m.1 < m'.1) ∧
      ∀ n l, (n, l) ∈ found ↔ (1 ≤ n ∧ (textLines content)[n - 1]? = some l) ∧ t <:+: l := by
  obtain ⟨c, hc, hvalue⟩ :=
    (isPhrase_escape ha hne).ofTerm.grouped.wrapped.exists_value ha (List.cons_ne_nil _ _)
  obtain ⟨hmore, h, hok, hr⟩ := hg.gives_language hc hvalue
  set g' := (g.generate (wrapPhrase (escape g.alphabet t))).1
  have hphrase : g.phrase t true = (g', .ok h) := Prod.ext rfl hok
  have hsearch : (g.searchText t true content).2 =
      .ok (g'.searchLines h (textLines content)).2 := by
    rw [searchText, hphrase]
  have hfound := hmore.consistent.searchFrom_eq hr.valid 1 (textLines content)
  refine ⟨_, hsearch, ?_, fun n l => ?_⟩
  · rw [searchLines, hfound]
    exact (pairwise_numbered 1 _).filter _
  · rw [searchLines, hfound, List.mem_filter, mem_numbered_of_isDivided (isDivided_iff.2 rfl),
      hr.accepts_iff, symbols_mem_containing_singleton]

end Generator

namespace Session

/-- For every text, each session, whatever it has done before, has an automaton for the escaped text
that accepts the text and nothing else. -/
theorem generate_escape (a : Alphabet) (caching transitionCaching : Bool)
    (ha : a.Lacks (operatorChars ++ shorthandChars ++ specialChars)) (steps : List Step)
    (hsteps : ∀ st ∈ steps, st.harmless = true) (t : Text) :
    ∃ g h, ((new (.new a caching transitionCaching)).after steps).generator.generate
        (escape a t) = (g, .ok h) ∧
      ∀ w, (g.accepts h w).2 = true ↔ w = Text.symbols t := by
  obtain ⟨hg, halphabet⟩ := consistent_generator_after a caching transitionCaching hsteps
  obtain ⟨c, hc, hvalue⟩ := exists_value_escape ha t
  set g := ((new (.new a caching transitionCaching)).after steps).generator
  have hc : canonical g.alphabet (escape a t) = .ok c := by rwa [halphabet]
  rw [← halphabet] at hvalue
  obtain ⟨_, h, hok, hr⟩ := hg.gives_language hc hvalue
  exact ⟨_, h, Prod.ext rfl hok, hr.accepts_iff⟩

theorem generate_escape_markAndParenthesis :
    let steps := [Step.make "wrong" (.generate ['(', 'a'])]
    let g₀ := ((new (.new (.ofText ['a']) true true)).after steps).generator
    (Alphabet.ofText ['a']).Lacks (operatorChars ++ shorthandChars ++ specialChars) ∧
      (∀ st ∈ steps, st.harmless = true) ∧
      escape (.ofText ['a']) ['/', ')', 'a', 'é'] = ['/', '/', '/', ')', 'a', '/', 'é'] ∧
      ∃ g h, g₀.generate ['/', '/', '/', ')', 'a', '/', 'é'] = (g, .ok h) ∧
        (g.accepts h ["/", ")", "a", "é"]).2 = true ∧ (g.accepts h ["/", "a", "é"]).2 = false := by
  intro steps g₀
  have hlacks :
      (Alphabet.ofText ['a']).Lacks (operatorChars ++ shorthandChars ++ specialChars) := by
    decide
  have hharmless : ∀ st ∈ steps, st.harmless = true := by
    simp [steps, Step.harmless, Making.harmless]
  have hescape : escape (.ofText ['a']) ['/', ')', 'a', 'é'] = ['/', '/', '/', ')', 'a', '/', 'é'] :=
    by decide
  obtain ⟨g, h, hgenerate, haccepts⟩ :=
    generate_escape (.ofText ['a']) true true hlacks steps hharmless ['/', ')', 'a', 'é']
  rw [hescape] at hgenerate
  refine ⟨hlacks, hharmless, hescape, g, h, hgenerate, (haccepts _).2 rfl, ?_⟩
  rw [← Bool.not_eq_true, haccepts]
  decide

/-- With the standard alphabet, each session, whatever it has done before, finds a phrase that is
taken literally in exactly the lines that it is part of, by increasing number.  Only the empty
phrase, which is part of every line, is not found anywhere: searching for it is an error. -/
theorem searchText_literal (caching transitionCaching : Bool) (steps : List Step)
    (hsteps : ∀ st ∈ steps, st.harmless = true) (t content : Text) :
    let g := ((new (.new .standard caching transitionCaching)).after steps).generator
    (t = [] → (g.searchText t true content).2 = .error (.pattern emptyPhraseError)) ∧
      (t ≠ [] → ∃ found lines, (g.searchText t true content).2 = .ok found ∧
        IsDivided content lines ∧ found.Pairwise (fun m m' => m.1 < m'.1) ∧
        ∀ n l, (n, l) ∈ found ↔ (1 ≤ n ∧ lines[n - 1]? = some l) ∧ t <:+: l) := by
  intro g
  obtain ⟨hg, halphabet⟩ := consistent_generator_after .standard caching transitionCaching hsteps
  refine ⟨?_, fun hne => ?_⟩
  · rintro rfl
    exact hg.searchText_nil halphabet content
  · have hlacks : g.alphabet.Lacks (operatorChars ++ shorthandChars ++ specialChars) := by
      rw [halphabet]
      decide
    obtain ⟨found, hok, hpairwise, hfound⟩ :=
      hg.searchText_of_ne_nil hlacks hne content
    exact ⟨found, textLines content, hok, isDivided_iff.2 rfl, hpairwise, hfound⟩

theorem searchText_literal_markAndParenthesis :
    let steps := [Step.make "wrong" (.generate ['(', 'a'])]
    let g := ((new (.new .standard true true)).after steps).generator
    let content := "x/(y\r\n(/\rz/(".toList
    (∀ st ∈ steps, st.harmless = true) ∧
      (∃ found, (g.searchText ['/', '('] true content).2 = .ok found ∧
        (1, ['x', '/', '(', 'y']) ∈ found ∧ (3, ['z', '/', '(']) ∈ found ∧
        (2, ['(', '/']) ∉ found) ∧
      (g.searchText [] true content).2 = .error (.pattern emptyPhraseError) := by
  intro steps g content
  have hharmless : ∀ st ∈ steps, st.harmless = true := by
    simp [steps, Step.harmless, Making.harmless]
  have hlines : textLines content = [['x', '/', '(', 'y'], ['(', '/'], ['z', '/', '(']] := by
    decide
  obtain ⟨-, hsome⟩ := searchText_literal true true steps hharmless ['/', '('] content
  obtain ⟨hnone, -⟩ := searchText_literal true true steps hharmless [] content
  obtain ⟨found, lines, hok, hdivided, -, hfound⟩ := hsome (by decide)
  obtain rfl := isDivided_iff.1 hdivided
  rw [hlines] at hfound
  refine ⟨hharmless, ⟨found, hok, (hfound _ _).2 ⟨⟨by decide, rfl⟩, ['x'], ['y'], rfl⟩,
    (hfound _ _).2 ⟨⟨by decide, rfl⟩, ['z'], [], rfl⟩, fun hmem => ?_⟩, hnone rfl⟩
  exact absurd ((hfound _ _).1 hmem).2 (by decide)

end Session

end RegexAutomata
