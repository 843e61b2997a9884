/-
Lines that contain a phrase.

To search for a phrase, it is put into parentheses between `.*` and `.*`.  That is put together text
by text, so one has to show that nothing in the phrase reaches beyond its parentheses, and nothing
around it into them.  Then the pattern accepts a line if and only if the phrase accepts some part of
it, whatever symbols there are in the rest of the line.

* `IsPhrase.wrapped` — the language of the wrapped phrase;
* `Generator.Consistent.searchFrom_eq` — a search keeps some of the lines, with their numbers;
* `Session.searchLines_wrapPhrase` — what is found, whatever the session has done before.
-/
import Mathlib.Data.List.DropRight
import RegexAutomata.Proofs.Compile.Notes
import RegexAutomata.Proofs.Compile.StarredShorthand
import RegexAutomata.Proofs.Session.Harmless

open scoped Computability

namespace RegexAutomata

/-! ### The wrapped phrase -/

/-- What has something of the language in the middle. -/
def containing (L : Language Symbol) : Language Symbol :=
  Atom.any.language∗ * (L * Atom.any.language∗)

theorem mem_kstar_any (w : List Symbol) : w ∈ Atom.any.language∗ := by
  refine Language.mem_kstar.2 ⟨w.map fun s => [s], ?_, ?_⟩
  · rw [← List.flatMap_def, List.flatMap_singleton']
  · intro v hv
    obtain ⟨s, _, rfl⟩ := List.mem_map.1 hv
    exact ⟨s, rfl⟩

theorem symbols_mem_containing {L : Language Symbol} {l : Text} :
    Text.symbols l ∈ containing L ↔ ∃ x y z, l = x ++ y ++ z ∧ Text.symbols y ∈ L := by
  constructor
  · rintro ⟨u, _, _, ⟨v, hv, w, _, rfl⟩, heq⟩
    obtain ⟨x, _, rfl, rfl, hrest⟩ := List.map_eq_append_iff.1 heq.symm
    obtain ⟨y, z, rfl, rfl, rfl⟩ := List.map_eq_append_iff.1 hrest
    exact ⟨x, y, z, (List.append_assoc x y z).symm, hv⟩
  · rintro ⟨x, y, z, rfl, hy⟩
    refine ⟨Text.symbols x, mem_kstar_any _, _,
      ⟨Text.symbols y, hy, Text.symbols z, mem_kstar_any _, rfl⟩, ?_⟩
    simp [Text.symbols]

namespace IsPhrase

variable {a : Alphabet} {L : Language Symbol}

theorem wrapped {p : Text} (h : IsPhrase a .base ('(' :: p ++ [')']) L) :
    IsPhrase a .expr (wrapPhrase p) (containing L) := by
  have hany : IsPhrase a .factor ['.', '*'] Atom.any.language∗ :=
    (any a).asFactor.starred (j := 1) (le_refl 1)
  have hwrapped := (hany.concat (h.asFactor.concat hany.asTerm)).ofTerm
  have htext : wrapPhrase p = ['.', '*'] ++ (('(' :: p ++ [')']) ++ ['.', '*']) := by
    simp [wrapPhrase]
  rwa [htext]

end IsPhrase

/-! ### Lines -/

/-- The text is the line without the line feeds and carriage returns at its end. -/
def IsTrimmed (line l : Text) : Prop :=
  ∃ ends, line = l ++ ends ∧ (∀ c ∈ ends, isLineEnd c = true) ∧
    ∀ hne : l ≠ [], ¬ isLineEnd (l.getLast hne) = true

theorem isTrimmed_iff {line l : Text} : IsTrimmed line l ↔ l = chomp line := by
  show IsTrimmed line l ↔ l = line.rdropWhile isLineEnd
  constructor
  · rintro ⟨ends, rfl, hends, hlast⟩
    rw [← List.rdropWhile_eq_self_iff] at hlast
    induction ends using List.reverseRecOn with
    | nil => rw [List.append_nil, hlast]
    | append_singleton ends c ih =>
      obtain ⟨hends, hc⟩ := List.forall_mem_append.1 hends
      rw [← List.append_assoc, List.rdropWhile_concat_pos _ _ _ (hc c (List.mem_singleton_self c))]
      exact ih hends
  · rintro rfl
    exact ⟨line.rtakeWhile isLineEnd, List.rdropWhile_append_rtakeWhile.symm,
      fun c hc => List.mem_rtakeWhile_imp hc, List.rdropWhile_last_not _ line⟩

/-- The lines with their numbers, without what ends them. -/
def numbered (number : Nat) (lines : List Text) : List Match :=
  (lines.zipIdx number).map fun e => (e.2, chomp e.1)

theorem mem_numbered {number n : Nat} {l : Text} {lines : List Text} :
    (n, l) ∈ numbered number lines ↔
      number ≤ n ∧ ∃ line, lines[n - number]? = some line ∧ IsTrimmed line l := by
  simp only [numbered, List.mem_map, Prod.exists, List.mk_mem_zipIdx_iff_le_and_getElem?_sub,
    Prod.mk.injEq, isTrimmed_iff]
  constructor
  · rintro ⟨line, _, ⟨hle, hget⟩, rfl, rfl⟩
    exact ⟨hle, line, hget, rfl⟩
  · rintro ⟨hle, line, hget, rfl⟩
    exact ⟨line, n, ⟨hle, hget⟩, rfl, rfl⟩

theorem pairwise_numbered (number : Nat) (lines : List Text) :
    (numbered number lines).Pairwise fun m m' => m.1 < m'.1 := by
  have hnumbers : (lines.zipIdx number).map Prod.snd = List.range' number lines.length :=
    List.zipIdx_map_snd number lines
  rw [numbered, List.pairwise_map, ← List.pairwise_map, hnumbers]
  exact List.pairwise_lt_range' 1

namespace Generator

variable {g : Generator} {h : Handle}

/-- A search keeps the lines that the automaton accepts. -/
theorem Consistent.searchFrom_eq (hg : g.Consistent) (hh : h < g.acceptors.size) (number : Nat)
    (lines : List Text) :
    (searchFrom h number g lines).2 =
      (numbered number lines).filter fun m => (g.accepts h (Text.symbols m.2)).2 := by
  induction lines generalizing g number with
  | nil => rfl
  | cons line lines ih =>
    have hread := (hg.keeps_accepts hh (Text.symbols (chomp line))).continues
    have hrest := ih hread.consistent (hh.trans_le hread.size) (number + 1)
    -- what is noted while one line is read does not change the verdict on the others
    simp only [hread.accepts_eq hg hh] at hrest
    have hcons : numbered number (line :: lines) =
        (number, chomp line) :: numbered (number + 1) lines := rfl
    rw [hcons, List.filter_cons, ← hrest]
    rfl

/-- The wrapped phrase has an automaton whenever the phrase has one, and it accepts what contains
the phrase. -/
theorem Consistent.generate_wrapPhrase {g₁ g' : Generator} {p : Text}
    (ha : g.alphabet.Lacks (operatorChars ++ shorthandChars ++ specialChars)) (hne : p ≠ [])
    (hg : g.Consistent) (hgenerate : g.generate p = (g₁, .ok h)) (hg' : g'.Consistent)
    (halphabet : g'.alphabet = g.alphabet) :
    ∃ L g₂ h₂, g₁.Recognizes h L ∧ g'.generate (wrapPhrase p) = (g₂, .ok h₂) ∧
      g'.Continues g₂ ∧ g₂.Recognizes h₂ (containing L) := by
  obtain ⟨-, c, L, hc, hvalue, hr⟩ := hg.value_of_generate hgenerate
  obtain ⟨c', hc', hvalue'⟩ :=
    (isPhrase_of_value ha hne hc hvalue).wrapped.exists_value ha (List.cons_ne_nil _ _)
  rw [← halphabet] at hc' hvalue'
  obtain ⟨hcontinues, h₂, hok, hr'⟩ := hg'.gives_language hc' hvalue'
  exact ⟨L, _, h₂, hr, Prod.ext rfl hok, hcontinues, hr'⟩

end Generator

namespace Session

/-- If some session has an automaton for a phrase, then each session for the same alphabet, whatever
it has done before, has one for the wrapped phrase.  A search with it finds, by increasing number,
exactly the lines with a part that the phrase accepts. -/
theorem searchLines_wrapPhrase (a : Alphabet) (caching transitionCaching : Bool)
    (ha : a.Lacks (operatorChars ++ shorthandChars ++ specialChars)) (steps steps' : List Step)
    (hsteps : ∀ st ∈ steps, st.harmless = true) (hsteps' : ∀ st ∈ steps', st.harmless = true)
    (p : Text) (hne : p ≠ []) (g₁ : Generator) (h₁ : Handle)
    (hgenerate : ((new (.new a caching transitionCaching)).after steps).generator.generate p =
      (g₁, .ok h₁)) (lines : List Text) :
    ∃ g₂ h₂, ((new (.new a caching transitionCaching)).after steps').generator.generate
        (wrapPhrase p) = (g₂, .ok h₂) ∧
      (g₂.searchLines h₂ lines).2.Pairwise (fun m m' => m.1 < m'.1) ∧
      ∀ n l, (n, l) ∈ (g₂.searchLines h₂ lines).2 ↔
        (1 ≤ n ∧ ∃ line, lines[n - 1]? = some line ∧ IsTrimmed line l) ∧
          ∃ x y z, l = x ++ y ++ z ∧ (g₁.accepts h₁ (Text.symbols y)).2 = true := by
  have hnew := consistent_new (Generator.consistent_new a caching transitionCaching)
  obtain ⟨hcontinues, hs⟩ := hnew.after hsteps
  obtain ⟨hcontinues', hs'⟩ := hnew.after hsteps'
  have halphabet : ((new (.new a caching transitionCaching)).after steps).generator.alphabet = a :=
    hcontinues.alphabet
  obtain ⟨L, g₂, h₂, hr, hwrapped, hmore, hr'⟩ := hs.generator.generate_wrapPhrase
    (halphabet.symm ▸ ha) hne hgenerate hs'.generator (hcontinues'.alphabet.trans halphabet.symm)
  have hfound := hmore.consistent.searchFrom_eq hr'.valid 1 lines
  refine ⟨g₂, h₂, hwrapped, ?_, fun n l => ?_⟩
  · rw [Generator.searchLines, hfound]
    exact (pairwise_numbered 1 lines).filter _
  · rw [Generator.searchLines, hfound, List.mem_filter, mem_numbered, hr'.accepts_iff,
      symbols_mem_containing]
    simp only [hr.accepts_iff]

theorem searchLines_wrapPhrase_escapedStar :
    let lines := [['Z', 'a', 'a', '*', 'é', '\r', '\n'], ['a', '*', 'a']]
    let g₀ := ((new (.new (.ofText ['a']) true true)).after []).generator
    let p := ['a', '+', '/', '*', 'a', '?', '!', '!', '#']
    (Alphabet.ofText ['a']).Lacks (operatorChars ++ shorthandChars ++ specialChars) ∧ p ≠ [] ∧
      (g₀.generate p).2 = .ok 0 ∧
      ∃ g₂ h₂, g₀.generate (wrapPhrase p) = (g₂, .ok h₂) ∧
        (1, ['Z', 'a', 'a', '*', 'é']) ∈ (g₂.searchLines h₂ lines).2 ∧
        (2, ['a', '*', 'a']) ∈ (g₂.searchLines h₂ lines).2 := by
  intro lines g₀ p
  have hlacks :
      (Alphabet.ofText ['a']).Lacks (operatorChars ++ shorthandChars ++ specialChars) := by
    decide
  have hok : (g₀.generate p).2 = .ok 0 := by decide +kernel
  obtain ⟨g₂, h₂, hwrapped, -, hfound⟩ := searchLines_wrapPhrase (.ofText ['a']) true true hlacks
    [] [] (by simp) (by simp) p (by simp [p]) _ 0 (Prod.ext rfl hok) lines
  refine ⟨hlacks, by simp [p], hok, g₂, h₂, hwrapped, (hfound _ _).2 ⟨⟨le_refl 1, _, rfl, ?_⟩, ?_⟩,
    (hfound _ _).2 ⟨⟨by decide, _, rfl, ?_⟩, ?_⟩⟩
  · exact isTrimmed_iff.2 rfl
  · exact ⟨['Z'], ['a', 'a', '*'], ['é'], rfl, by decide +kernel⟩
  · exact isTrimmed_iff.2 rfl
  · exact ⟨[], ['a', '*', 'a'], [], rfl, by decide +kernel⟩

end Session

end RegexAutomata
