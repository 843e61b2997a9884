/-
What a generator makes of a pattern.

A handle recognizes a language if its automaton has this language and its notes are faithful
(`Generator.Recognizes`), whatever else the generator has made.

* `Generator.evaluate_of_value`, `evaluate_of_no_value` — a canonical pattern; the graph grows;
* `Generator.generate_of_value`, `generate_of_no_value` — a pattern that the generator does not
  know yet;
* `Generator.evaluate_canonical` — a spelling of the tokens of a syntax tree has an automaton for
  the language of the tree.
-/
import RegexAutomata.Proofs.Automaton.Remembering
import RegexAutomata.Proofs.Compile.Precedence

open scoped Computability

namespace RegexAutomata

namespace Generator

/-- The automaton of a handle has this language. -/
structure Recognizes (g : Generator) (h : Handle) (L : Language Symbol) : Prop where
  valid : h < g.acceptors.size
  faithful : (g.acceptor h).Faithful g.graph
  language : (g.acceptor h).automaton.language g.graph = L

section

variable {g g' : Generator} {h : Handle} {L : Language Symbol}

theorem Recognizes.accepts_iff (hr : g.Recognizes h L) (w : List Symbol) :
    (g.accepts h w).2 = true ↔ w ∈ L := by
  rw [accepts_iff_of_faithful hr.faithful, hr.language]

/-- Only the automata and the graph matter. -/
theorem Recognizes.congr (hr : g.Recognizes h L) (hacceptors : g'.acceptors = g.acceptors)
    (hgraph : g'.graph = g.graph) : g'.Recognizes h L := by
  have hacceptor : g'.acceptor h = g.acceptor h := by
    rw [acceptor, acceptor, hacceptors]
  exact
    { valid := hacceptors ▸ hr.valid
      faithful := by
        rw [hacceptor, hgraph]
        exact hr.faithful
      language := by rw [hacceptor, hgraph, hr.language] }

theorem Recognizes.disableCaching (hr : g.Recognizes h L) :
    (g.set h (g.acceptor h).disableCaching).Recognizes h L := by
  have hacceptor : (g.set h (g.acceptor h).disableCaching).acceptor h =
      (g.acceptor h).disableCaching := by
    simp [set, acceptor, hr.valid]
  exact
    { valid := by simpa [set] using hr.valid
      faithful := by
        rw [hacceptor]
        exact Acceptor.faithful_disableCaching hr.faithful
      language := by
        rw [hacceptor]
        exact hr.language }

theorem recognizes_keep (g : Generator) {a : Automaton} (ha : a.language g.graph = L) :
    (g.keep (.ofAutomaton a)).1.Recognizes g.acceptors.size L where
  valid := by simp [keep]
  faithful := by
    rw [acceptor_keep]
    exact Acceptor.faithful_ofAutomaton a _
  language := by
    rw [acceptor_keep]
    exact ha

end

variable {g : Generator} {p c t : Text} {L : Language Symbol}

/-! ### Canonical patterns -/

/-- A canonical pattern that leaves one language on the stack gets a new automaton, and the graph
grows. -/
theorem evaluate_grows
    (hvalue : (Program.ofText g.alphabet t).value g.alphabet.operating [] = some [L]) :
    ∃ b a, g.evaluate t = (({ g with builder := b }.keep (.ofAutomaton a)).1,
        .ok g.acceptors.size) ∧
      g.graph.Grows b.graph ∧ a.start < b.graph.size ∧ a.language b.graph = L := by
  obtain ⟨b, a, hcompile, hgrows, hstart, ha⟩ := g.builder.compile_of_value hvalue
  exact ⟨b, a, by rw [evaluate, hcompile]; rfl, hgrows, hstart, ha⟩

theorem evaluate_of_value
    (hvalue : (Program.ofText g.alphabet t).value g.alphabet.operating [] = some [L]) :
    ∃ g' h, g.evaluate t = (g', .ok h) ∧ g'.Recognizes h L := by
  obtain ⟨b, a, hevaluate, _, _, ha⟩ := evaluate_grows hvalue
  exact ⟨_, _, hevaluate, recognizes_keep { g with builder := b } ha⟩

/-- Any other canonical pattern is wrong in the same way for all generators, and only the graph
grows. -/
theorem evaluate_grows_of_no_value {a : Alphabet}
    (hvalue : ∀ L, (Program.ofText a t).value a.operating [] ≠ some [L]) :
    ∃ e, ∀ g : Generator, g.alphabet = a → ∃ b,
      g.evaluate t = ({ g with builder := b }, .error (.pattern e)) ∧ g.graph.Grows b.graph := by
  obtain ⟨e, hcompile⟩ := Builder.compile_of_no_value hvalue
  refine ⟨e, ?_⟩
  rintro g rfl
  obtain ⟨b, heq, hgrows⟩ := hcompile g.builder
  exact ⟨b, by simp only [evaluate, heq], hgrows⟩

theorem evaluate_of_no_value
    (hvalue : ∀ L, (Program.ofText g.alphabet t).value g.alphabet.operating [] ≠ some [L]) :
    ∃ g' e, g.evaluate t = (g', .error (.pattern e)) := by
  obtain ⟨e, hevaluate⟩ := evaluate_grows_of_no_value hvalue
  obtain ⟨b, heq, _⟩ := hevaluate g rfl
  exact ⟨_, e, heq⟩

/-! ### Patterns -/

theorem elongate_of_unknown (hp : g.patterns.get? p = none) (hc : canonical g.alphabet p = .ok c) :
    g.elongate p = ({ g.report (.canonized p c) with patterns := g.patterns.put p c }, .ok c) := by
  simp only [elongate, hp, hc]

/-- A new generator works out the canonical form. -/
theorem elongate_new (a : Alphabet) (caching transitionCaching : Bool) (p : Text) :
    ((new a caching transitionCaching).elongate p).2 = canonical a p := by
  have hp : (new a caching transitionCaching).patterns.get? p = none := rfl
  have ha : (new a caching transitionCaching).alphabet = a := rfl
  cases hc : canonical a p with
  | ok c => rw [elongate_of_unknown hp (ha ▸ hc)]
  | error e => simp only [elongate, hp, ha, hc]

theorem remembered_eq_none (hfresh : g.automata.get? c = none) :
    (if g.caching then g.automata.get? c else none) = none := by
  split
  · exact hfresh
  · rfl

theorem generate_of_value (hp : g.patterns.get? p = none) (hc : canonical g.alphabet p = .ok c)
    (hfresh : g.automata.get? c = none)
    (hvalue : (Program.ofText g.alphabet c).value g.alphabet.operating [] = some [L]) :
    ∃ g' h, g.generate p = (g', .ok h) ∧ g'.Recognizes h L := by
  set g₀ : Generator := { g.report (.canonized p c) with patterns := g.patterns.put p c } with hg₀
  have hmemory : (if g₀.caching then g₀.automata.get? c else none) = none :=
    remembered_eq_none hfresh
  obtain ⟨g₁, h, hevaluate, hr⟩ := evaluate_of_value (g := g₀) hvalue
  set g₂ := if g₁.transitionCaching then g₁ else g₁.set h (g₁.acceptor h).disableCaching with hg₂
  have hr₂ : g₂.Recognizes h L := by
    rw [hg₂]
    split
    · exact hr
    · exact hr.disableCaching
  set g₃ := g₂.report (.compiled c ((g₂.acceptor h).automaton.vertices g₂.graph).size) with hg₃
  refine ⟨if g₃.caching then { g₃ with automata := g₃.automata.put c h } else g₃, h, ?_, ?_⟩
  · simp only [generate, elongate_of_unknown hp hc, ← hg₀, hmemory, hevaluate, ← hg₂, ← hg₃]
  · split
    · exact hr₂.congr rfl rfl
    · exact hr₂.congr rfl rfl

theorem generate_of_no_value (hp : g.patterns.get? p = none)
    (hc : canonical g.alphabet p = .ok c) (hfresh : g.automata.get? c = none)
    (hvalue : ∀ L, (Program.ofText g.alphabet c).value g.alphabet.operating [] ≠ some [L]) :
    ∃ g' e, g.generate p = (g', .error (.pattern e)) := by
  set g₀ : Generator := { g.report (.canonized p c) with patterns := g.patterns.put p c } with hg₀
  have hmemory : (if g₀.caching then g₀.automata.get? c else none) = none :=
    remembered_eq_none hfresh
  obtain ⟨g₁, e, hevaluate⟩ := evaluate_of_no_value (g := g₀) hvalue
  exact ⟨g₁, e, by simp only [generate, elongate_of_unknown hp hc, ← hg₀, hmemory, hevaluate]⟩

/-- A pattern that a new generator has an automaton for has a canonical form with a language. -/
theorem value_of_generate {a : Alphabet} {caching transitionCaching : Bool} {g : Generator}
    {h : Handle} (hgenerate : (new a caching transitionCaching).generate p = (g, .ok h)) :
    ∃ c L, canonical a p = .ok c ∧ (Program.ofText a c).value a.operating [] = some [L] := by
  have helongate := elongate_new a caching transitionCaching p
  cases hc : canonical a p with
  | error e =>
    rw [hc] at helongate
    rcases heq : (new a caching transitionCaching).elongate p with ⟨g', r⟩
    rw [heq] at helongate
    obtain rfl : r = .error e := helongate
    simp only [generate, heq] at hgenerate
    cases hgenerate
  | ok c =>
    refine ⟨c, ?_⟩
    by_contra hnone
    obtain ⟨g', e, herror⟩ := generate_of_no_value
      (g := new a caching transitionCaching) rfl hc rfl fun L hL => hnone ⟨L, rfl, hL⟩
    rw [hgenerate] at herror
    cases herror

/-! ### Spellings of syntax trees -/

/-- The program of a spelling evaluates the syntax tree. -/
theorem value_of_spells {a : Alphabet} (ha : a.Lacks (operatorChars ++ specialChars))
    {e : Canon .expr} (ht : Spells a t e.tokens) (symbols : List Symbol) :
    (Program.ofText a t).value symbols [] = some [e.denote symbols] := by
  obtain ⟨hstop, htokens⟩ := scan_of_spells ha ht
  rw [Program.value_ofText, if_pos hstop, htokens, valueFrom_expr]

/-- A spelling of a syntax tree always has an automaton, and it accepts what the tree denotes:
complements are taken over the symbols that the engine can see. -/
theorem evaluate_canonical (g : Generator)
    (hlacks : g.alphabet.Lacks (operatorChars ++ specialChars)) (e : Canon .expr) (t : Text)
    (ht : Spells g.alphabet t e.tokens) :
    ∃ g' h, g.evaluate t = (g', .ok h) ∧
      ∀ w, (g'.accepts h w).2 = true ↔ w ∈ e.denote g.alphabet.operating := by
  obtain ⟨g', h, hevaluate, hr⟩ := evaluate_of_value (value_of_spells hlacks ht _)
  exact ⟨g', h, hevaluate, hr.accepts_iff⟩

/-- Anything but `a`, and one more symbol. -/
def negationThenAny : Canon .expr :=
  .ofTerm (.concat (.complement (.atom (.one (Symbol.ofChar 'a'))))
    (.ofFactor (.ofBase (.atom .any))))

theorem evaluate_canonical_negationThenAny :
    (Alphabet.ofText ['a']).Lacks (operatorChars ++ specialChars) ∧
      Spells (.ofText ['a']) ['!', '/', 'a', '&', '.'] negationThenAny.tokens ∧
      ∃ g' h, (new (.ofText ['a']) true true).evaluate ['!', '/', 'a', '&', '.'] = (g', .ok h) ∧
        (g'.accepts h ["a", "|", "z"]).2 = true := by
  have hlacks : (Alphabet.ofText ['a']).Lacks (operatorChars ++ specialChars) := by decide
  have hspells : Spells (.ofText ['a']) ['!', '/', 'a', '&', '.'] negationThenAny.tokens :=
    ⟨[.bare '!', .escaped 'a', .bare '&', .bare '.'], rfl,
      .cons (.op .complement) (.cons (.escaped 'a') (.cons (.op .concat) (.cons .any .nil)))⟩
  refine ⟨hlacks, hspells, ?_⟩
  obtain ⟨g', h, hevaluate, haccepts⟩ :=
    evaluate_canonical (new (.ofText ['a']) true true) hlacks negationThenAny _ hspells
  have hover : Over (Alphabet.ofText ['a']).operating ["a", "|"] := by
    intro s hs
    rw [Alphabet.mem_operating]
    revert s
    decide
  have hne : (["a", "|"] : List Symbol) ≠ ["a"] := by decide
  exact ⟨g', h, hevaluate, (haccepts _).2 ⟨["a", "|"], ⟨hover, hne⟩, ["z"], ⟨"z", rfl⟩, rfl⟩⟩

end Generator

end RegexAutomata
