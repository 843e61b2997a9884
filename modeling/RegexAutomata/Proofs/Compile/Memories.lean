/-
What a generator remembers.

A generator is consistent if its automata are settled, if the patterns that it remembers have the
canonical form that it remembers, and if the automata that it remembers have the languages that
their patterns leave on the machine's stack (`Generator.Consistent`).  Whatever does not change
existing automata leads from a consistent generator to another one that has the same automata and
maybe more (`Generator.Continues`).

* `Consistent.build`, `keep`, `set` — the changes that all operations are made of;
* `Consistent.elongate`, `evaluate`, `complementOver`, `complement` — operations;
* `Generator.exists_answer` — what comes out of a pattern depends only on the alphabet and the
  pattern, not on what a consistent generator has made before.
-/
import RegexAutomata.Proofs.Automaton.Growth
import RegexAutomata.Proofs.Compile.Generate

open scoped Computability

namespace RegexAutomata

namespace Builder

variable {b : Builder} {symbols : List Symbol} {a : Automaton}

/-- The graph grows when a complement is made. -/
theorem grows_complement (b : Builder) (symbols : List Symbol) (a : Automaton) :
    b.graph.Grows (b.complement symbols a).1.graph := by
  unfold complement
  by_cases hdet : a.deterministic = true
  · rw [if_pos hdet]
    exact .refl _
  · rw [if_neg hdet]
    have h := determinizes_subsetComplement b symbols a
    exact ⟨h.size.le, h.node⟩

theorem start_complement_lt (h : a.deterministic = true → a.start < b.graph.size) :
    (b.complement symbols a).2.start < (b.complement symbols a).1.graph.size := by
  unfold complement
  by_cases hdet : a.deterministic = true
  · rw [if_pos hdet]
    exact h hdet
  · rw [if_neg hdet]
    have hmade := determinizes_subsetComplement b symbols a
    rw [hmade.start]
    exact hmade.size

end Builder

namespace Generator

variable {g g' g'' : Generator} {h : Handle}

theorem acceptor_keep_of_lt (x : Acceptor) (hh : h < g.acceptors.size) :
    (g.keep x).1.acceptor h = g.acceptor h := by
  simp [acceptor, keep, Array.getElem?_push, hh.ne]

theorem acceptor_set (x : Acceptor) (hh : h < g.acceptors.size) (i : Handle) :
    (g.set h x).acceptor i = if i = h then x else g.acceptor i := by
  by_cases hi : i = h
  · subst hi
    simp [acceptor, set, hh]
  · simp [acceptor, set, hi, Ne.symm hi]

/-- What the generator has made and remembers is right. -/
structure Consistent (g : Generator) : Prop where
  settled : ∀ h < g.acceptors.size, (g.acceptor h).Settled g.graph
  patterns : ∀ p c, g.patterns.get? p = some c → canonical g.alphabet p = .ok c
  automata : ∀ c h, g.automata.get? c = some h → h < g.acceptors.size ∧
    (Program.ofText g.alphabet c).value g.alphabet.operating [] =
      some [(g.acceptor h).automaton.language g.graph]
  complements : ∀ h r, g.complements.get? h = some r → r < g.acceptors.size

/-- The second generator is consistent, and has all automata of the first one. -/
structure Continues (g g' : Generator) : Prop where
  consistent : g'.Consistent
  alphabet : g'.alphabet = g.alphabet
  size : g.acceptors.size ≤ g'.acceptors.size
  graph : g.graph.Grows g'.graph
  automaton : ∀ h < g.acceptors.size, (g'.acceptor h).automaton = (g.acceptor h).automaton

theorem consistent_new (a : Alphabet) (caching transitionCaching : Bool) :
    (new a caching transitionCaching).Consistent where
  settled h hh := absurd hh (Nat.not_lt_zero h)
  patterns := nofun
  automata := nofun
  complements := nofun

theorem Consistent.refl (hg : g.Consistent) : g.Continues g :=
  ⟨hg, rfl, le_refl _, .refl _, fun _ _ => rfl⟩

theorem Continues.trans (h₁ : g.Continues g') (h₂ : g'.Continues g'') : g.Continues g'' where
  consistent := h₂.consistent
  alphabet := h₂.alphabet.trans h₁.alphabet
  size := h₁.size.trans h₂.size
  graph := h₁.graph.trans h₂.graph
  automaton h hh := by rw [h₂.automaton h (hh.trans_le h₁.size), h₁.automaton h hh]

/-- Old automata keep their languages. -/
theorem Continues.language (hc : g.Continues g') (hg : g.Consistent)
    (hh : h < g.acceptors.size) :
    (g'.acceptor h).automaton.language g'.graph = (g.acceptor h).automaton.language g.graph := by
  rw [hc.automaton h hh]
  exact Automaton.language_of_grows hc.graph (hg.settled h hh).start

theorem Recognizes.continues {L : Language Symbol} (hr : g.Recognizes h L) (hg : g.Consistent)
    (hc : g.Continues g') : g'.Recognizes h L where
  valid := hr.valid.trans_le hc.size
  faithful := (hc.consistent.settled h (hr.valid.trans_le hc.size)).faithful
  language := by rw [hc.language hg hr.valid, hr.language]

/-- An automaton accepts what it has accepted before. -/
theorem Continues.accepts_eq (hc : g.Continues g') (hg : g.Consistent)
    (hh : h < g.acceptors.size) (w : List Symbol) : (g'.accepts h w).2 = (g.accepts h w).2 := by
  have hr : g.Recognizes h _ := ⟨hh, (hg.settled h hh).faithful, rfl⟩
  rw [Bool.eq_iff_iff, (hr.continues hg hc).accepts_iff, hr.accepts_iff]

/-! ### Changes -/

/-- A consistent generator stays so if its automata stay what they are and only settled ones are
added. -/
theorem Consistent.continues (hg : g.Consistent) (halphabet : g'.alphabet = g.alphabet)
    (hsize : g.acceptors.size ≤ g'.acceptors.size) (hgraph : g.graph.Grows g'.graph)
    (hautomaton : ∀ h < g.acceptors.size, (g'.acceptor h).automaton = (g.acceptor h).automaton)
    (hsettled : ∀ h < g'.acceptors.size, (g'.acceptor h).Settled g'.graph)
    (hpatterns : g'.patterns = g.patterns) (hautomata : g'.automata = g.automata)
    (hcomplements : g'.complements = g.complements) : g.Continues g' where
  consistent :=
    { settled := hsettled
      patterns := by
        rw [halphabet, hpatterns]
        exact hg.patterns
      automata := by
        intro c h hget
        rw [hautomata] at hget
        obtain ⟨hh, hvalue⟩ := hg.automata c h hget
        refine ⟨hh.trans_le hsize, ?_⟩
        rw [halphabet, hautomaton h hh, hvalue,
          Automaton.language_of_grows hgraph (hg.settled h hh).start]
      complements := by
        rw [hcomplements]
        exact fun h r hget => (hg.complements h r hget).trans_le hsize }
  alphabet := halphabet
  size := hsize
  graph := hgraph
  automaton := hautomaton

theorem Consistent.build (hg : g.Consistent) {b : Builder} (hb : g.graph.Grows b.graph) :
    g.Continues { g with builder := b } :=
  hg.continues rfl (le_refl _) hb (fun _ _ => rfl) (fun h hh => (hg.settled h hh).grow hb) rfl rfl
    rfl

theorem Consistent.report (hg : g.Consistent) (e : Event) : g.Continues (g.report e) :=
  hg.build (.refl _)

theorem Consistent.forgetEvents (hg : g.Consistent) : g.Continues g.forgetEvents :=
  hg.build (.refl _)

/-- A new automaton starts at a vertex of the graph, which may have grown before. -/
theorem Consistent.keep (hg : g.Consistent) {b : Builder} (hb : g.graph.Grows b.graph)
    {a : Automaton} (ha : a.start < b.graph.size) :
    g.Continues ({ g with builder := b }.keep (.ofAutomaton a)).1 := by
  set g₁ : Generator := { g with builder := b } with hg₁
  have hsize : (g₁.keep (.ofAutomaton a)).1.acceptors.size = g.acceptors.size + 1 :=
    Array.size_push _
  have hold : ∀ h < g.acceptors.size, (g₁.keep (.ofAutomaton a)).1.acceptor h = g.acceptor h :=
    fun h hh => acceptor_keep_of_lt (g := g₁) _ hh
  have hnew : (g₁.keep (.ofAutomaton a)).1.acceptor g.acceptors.size = .ofAutomaton a :=
    acceptor_keep g₁ _
  refine hg.continues rfl (by rw [hsize]; exact Nat.le_succ _) hb
    (fun h hh => by rw [hold h hh]) (fun h hh => ?_) rfl rfl rfl
  rw [hsize] at hh
  rcases Nat.lt_succ_iff_lt_or_eq.1 hh with hh | rfl
  · rw [hold h hh]
    exact (hg.settled h hh).grow hb
  · rw [hnew]
    exact Acceptor.settled_ofAutomaton ha

/-- The notes of an automaton change. -/
theorem Consistent.set (hg : g.Consistent) {x : Acceptor} (hh : h < g.acceptors.size)
    (hx : x.Settled g.graph) (hsame : x.automaton = (g.acceptor h).automaton) :
    g.Continues (g.set h x) := by
  have hsize : (g.set h x).acceptors.size = g.acceptors.size := Array.size_setIfInBounds
  refine hg.continues rfl hsize.ge (.refl _) (fun i _ => ?_) (fun i hi => ?_) rfl rfl rfl
  · rw [acceptor_set x hh]
    split
    · subst_vars
      exact hsame
    · rfl
  · rw [acceptor_set x hh]
    split
    · exact hx
    · exact hg.settled i (hi.trans_eq hsize)

/-- Another memory does not matter to the automata. -/
theorem Consistent.of_sameAutomata (hg' : g'.Consistent) (halphabet : g'.alphabet = g.alphabet)
    (hbuilder : g'.builder = g.builder) (hacceptors : g'.acceptors = g.acceptors) :
    g.Continues g' where
  consistent := hg'
  alphabet := halphabet
  size := by rw [hacceptors]
  graph := by
    rw [graph, graph, hbuilder]
    exact .refl _
  automaton h _ := by rw [acceptor, acceptor, hacceptors]

/-- Memories may be switched on and off. -/
theorem Consistent.switch (hg : g.Consistent)
    (caching transitionCaching complementCaching : Bool) :
    g.Continues { g with caching, transitionCaching, complementCaching } := by
  refine of_sameAutomata ?_ rfl rfl rfl
  exact ⟨hg.settled, hg.patterns, hg.automata, hg.complements⟩

/-- A memory that knows less is right too. -/
theorem Consistent.forget (hg : g.Consistent) {patterns : Table Text Text}
    {automata : Table Text Handle} {complements : Table Handle Handle}
    (hpatterns : patterns = g.patterns ∨ patterns = [])
    (hautomata : automata = g.automata ∨ automata = [])
    (hcomplements : complements = g.complements ∨ complements = []) :
    g.Continues { g with patterns, automata, complements } := by
  refine of_sameAutomata ⟨hg.settled, ?_, ?_, ?_⟩ rfl rfl rfl
  · rcases hpatterns with rfl | rfl
    · exact hg.patterns
    · exact nofun
  · rcases hautomata with rfl | rfl
    · exact hg.automata
    · exact nofun
  · rcases hcomplements with rfl | rfl
    · exact hg.complements
    · exact nofun

theorem Consistent.rememberPattern (hg : g.Consistent) {p c : Text}
    (hc : canonical g.alphabet p = .ok c) :
    g.Continues { g with patterns := g.patterns.put p c } := by
  refine of_sameAutomata ⟨hg.settled, fun p' c' hget => ?_, hg.automata, hg.complements⟩ rfl rfl rfl
  rw [Table.get?_put] at hget
  split at hget
  · subst_vars
    cases hget
    exact hc
  · exact hg.patterns p' c' hget

theorem Consistent.rememberAutomaton (hg : g.Consistent) {c : Text} {L : Language Symbol}
    (hr : g.Recognizes h L)
    (hvalue : (Program.ofText g.alphabet c).value g.alphabet.operating [] = some [L]) :
    g.Continues { g with automata := g.automata.put c h } := by
  refine of_sameAutomata ⟨hg.settled, hg.patterns, fun c' h' hget => ?_, hg.complements⟩ rfl rfl rfl
  rw [Table.get?_put] at hget
  split at hget
  · subst_vars
    cases hget
    refine ⟨hr.valid, hvalue.trans ?_⟩
    rw [← hr.language]
    rfl
  · exact hg.automata c' h' hget

theorem Consistent.rememberComplement (hg : g.Consistent) {r : Handle}
    (hr : r < g.acceptors.size) (h : Handle) :
    g.Continues { g with complements := g.complements.put h r } := by
  refine of_sameAutomata ⟨hg.settled, hg.patterns, hg.automata, fun h' r' hget => ?_⟩ rfl rfl rfl
  rw [Table.get?_put] at hget
  split at hget
  · cases hget
    exact hr
  · exact hg.complements h' r' hget

/-! ### Operations -/

/-- The canonical form of a pattern is always the same, remembered or not. -/
theorem Consistent.elongate (hg : g.Consistent) (p : Text) :
    g.Continues (g.elongate p).1 ∧ (g.elongate p).2 = canonical g.alphabet p := by
  cases hp : g.patterns.get? p with
  | some c =>
    have heq : g.elongate p = (g.report (.patternKnown p), .ok c) := by
      simp only [Generator.elongate, hp]
    rw [heq]
    exact ⟨hg.report _, (hg.patterns p c hp).symm⟩
  | none =>
    cases hc : canonical g.alphabet p with
    | ok c =>
      rw [elongate_of_unknown hp hc]
      have hreport := hg.report (.canonized p c)
      exact ⟨hreport.trans (hreport.consistent.rememberPattern hc), rfl⟩
    | error e =>
      have heq : g.elongate p = (g, .error e) := by simp only [Generator.elongate, hp, hc]
      rw [heq]
      exact ⟨hg.refl, rfl⟩

/-- From a consistent generator a result leads on, and if it is an automaton then one that the
generator has. -/
structure Provides {ε : Type} (g : Generator) (r : Generator × Except ε Handle) : Prop where
  continues : g.Continues r.1
  valid : ∀ h, r.2 = .ok h → h < r.1.acceptors.size

theorem Provides.mapError {ε ε' : Type} {r : Generator × Except ε Handle} (hr : g.Provides r)
    (f : ε → ε') : g.Provides (r.1, r.2.mapError f) where
  continues := hr.continues
  valid h hh := by
    refine hr.valid h ?_
    rcases r with ⟨g', _ | i⟩
    · cases hh
    · cases hh
      rfl

theorem Consistent.keep_provides (hg : g.Consistent) {b : Builder} (hb : g.graph.Grows b.graph)
    {a : Automaton} (ha : a.start < b.graph.size) (ε : Type) :
    g.Provides (ε := ε)
      (({ g with builder := b }.keep (.ofAutomaton a)).1, .ok g.acceptors.size) where
  continues := hg.keep hb ha
  valid h hh := by
    cases hh
    simp [Generator.keep]

theorem Consistent.evaluate (hg : g.Consistent) (c : Text) : g.Provides (g.evaluate c) := by
  by_cases hvalue : ∃ L, (Program.ofText g.alphabet c).value g.alphabet.operating [] = some [L]
  · obtain ⟨L, hvalue⟩ := hvalue
    obtain ⟨b, a, heq, hgrows, hstart, _⟩ := evaluate_grows hvalue
    rw [heq]
    exact hg.keep_provides hgrows hstart _
  · obtain ⟨e, hevaluate⟩ := evaluate_grows_of_no_value (not_exists.1 hvalue)
    obtain ⟨b, heq, hgrows⟩ := hevaluate g rfl
    rw [heq]
    exact ⟨hg.build hgrows, nofun⟩

theorem Consistent.complementOver (hg : g.Consistent) (a : Alphabet) (hh : h < g.acceptors.size)
    (ε : Type) :
    g.Provides (ε := ε) ((g.complementOver a h).1, .ok (g.complementOver a h).2) :=
  hg.keep_provides (Builder.grows_complement _ _ _)
    (Builder.start_complement_lt fun _ => (hg.settled h hh).start) ε

theorem Consistent.complement (hg : g.Consistent) (hh : h < g.acceptors.size) (ε : Type) :
    g.Provides (ε := ε) ((g.complement h).1, .ok (g.complement h).2) := by
  have hmade := hg.complementOver g.alphabet hh ε
  unfold Generator.complement
  by_cases hc : g.complementCaching = true
  · rw [if_pos hc]
    cases hr : g.complements.get? h with
    | some r =>
      refine ⟨hg.report _, fun i hi => ?_⟩
      cases hi
      exact hg.complements h r hr
    | none =>
      have hremember :=
        hmade.continues.consistent.rememberComplement (hmade.valid _ rfl) h
      exact ⟨hmade.continues.trans hremember, hmade.valid⟩
  · rw [if_neg hc]
    exact hmade

/-! ### Answers -/

/-- The answer is this error, or an automaton for this language. -/
def Gives (r : Generator × Except BuildError Handle) : Except BuildError (Language Symbol) → Prop
  | .error e => r.2 = .error e
  | .ok L => ∃ h, r.2 = .ok h ∧ r.1.Recognizes h L

/-- What a new automaton goes through before it is handed out. -/
theorem Consistent.generate_of_evaluate {g₀ g₁ : Generator} {p c : Text} {L : Language Symbol}
    (hg₁ : g₁.Consistent) (helongate : g.elongate p = (g₀, .ok c))
    (hmemory : (if g₀.caching then g₀.automata.get? c else none) = none)
    (hevaluate : g₀.evaluate c = (g₁, .ok h)) (hr : g₁.Recognizes h L)
    (hvalue : (Program.ofText g₁.alphabet c).value g₁.alphabet.operating [] = some [L]) :
    g₁.Continues (g.generate p).1 ∧ Gives (g.generate p) (.ok L) := by
  set g₂ := if g₁.transitionCaching then g₁ else g₁.set h (g₁.acceptor h).disableCaching with hg₂
  have hc₂ : g₁.Continues g₂ := by
    rw [hg₂]
    split
    · exact hg₁.refl
    · exact hg₁.set hr.valid ((hg₁.settled h hr.valid).withCaching false) rfl
  set g₃ := g₂.report (.compiled c ((g₂.acceptor h).automaton.vertices g₂.graph).size) with hg₃
  have hc₃ : g₁.Continues g₃ := hc₂.trans (hc₂.consistent.report _)
  have hr₃ : g₃.Recognizes h L := hr.continues hg₁ hc₃
  have heq : g.generate p =
      (if g₃.caching then { g₃ with automata := g₃.automata.put c h } else g₃, .ok h) := by
    simp only [generate, helongate, hmemory, hevaluate, ← hg₂, ← hg₃]
  have hc₄ : g₃.Continues (g.generate p).1 := by
    rw [heq]
    by_cases hcaching : g₃.caching = true
    · rw [if_pos hcaching]
      exact hc₃.consistent.rememberAutomaton hr₃ (by rw [hc₃.alphabet]; exact hvalue)
    · rw [if_neg hcaching]
      exact hc₃.consistent.refl
  exact ⟨hc₃.trans hc₄, h, by rw [heq], hr₃.continues hc₃.consistent hc₄⟩

/-- An automaton that is handed out from memory. -/
theorem Consistent.generate_of_remembered {g₀ : Generator} {p c : Text} {L : Language Symbol}
    (hg₀ : g₀.Consistent) (helongate : g.elongate p = (g₀, .ok c))
    (hmemory : (if g₀.caching then g₀.automata.get? c else none) = some h)
    (hvalue : (Program.ofText g₀.alphabet c).value g₀.alphabet.operating [] = some [L]) :
    g₀.Continues (g.generate p).1 ∧ Gives (g.generate p) (.ok L) := by
  have hget : g₀.automata.get? c = some h := by
    split at hmemory
    · exact hmemory
    · cases hmemory
  obtain ⟨hh, hremembered⟩ := hg₀.automata c h hget
  have hlanguage : (g₀.acceptor h).automaton.language g₀.graph = L := by
    simpa using hremembered.symm.trans hvalue
  have hc := hg₀.report (.automatonKnown c)
  have hr : g₀.Recognizes h L := ⟨hh, (hg₀.settled h hh).faithful, hlanguage⟩
  have heq : g.generate p = (g₀.report (.automatonKnown c), .ok h) := by
    simp only [generate, helongate, hmemory]
  rw [heq]
  exact ⟨hc, h, rfl, hr.continues hg₀ hc⟩

theorem Consistent.elongate_eq (hg : g.Consistent) {p : Text} {r : Except PatternError Text}
    (hr : canonical g.alphabet p = r) :
    ∃ g₀, g.elongate p = (g₀, r) ∧ g.Continues g₀ := by
  obtain ⟨hcontinues, hresult⟩ := hg.elongate p
  exact ⟨_, Prod.ext rfl (hresult.trans hr), hcontinues⟩

theorem Consistent.gives_error (hg : g.Consistent) {p : Text} {e : PatternError}
    (he : canonical g.alphabet p = .error e) :
    g.Continues (g.generate p).1 ∧ Gives (g.generate p) (.error (.pattern e)) := by
  obtain ⟨g₀, helongate, hcontinues⟩ := hg.elongate_eq he
  have heq : g.generate p = (g₀, .error (.pattern e)) := by simp only [generate, helongate]
  rw [heq]
  exact ⟨hcontinues, rfl⟩

theorem Consistent.gives_language (hg : g.Consistent) {p c : Text} {L : Language Symbol}
    (hc : canonical g.alphabet p = .ok c)
    (hvalue : (Program.ofText g.alphabet c).value g.alphabet.operating [] = some [L]) :
    g.Continues (g.generate p).1 ∧ Gives (g.generate p) (.ok L) := by
  obtain ⟨g₀, helongate, hcontinues⟩ := hg.elongate_eq hc
  rw [← hcontinues.alphabet] at hvalue
  cases hmemory : if g₀.caching then g₀.automata.get? c else none with
  | some h =>
    obtain ⟨hgenerate, hgives⟩ :=
      hcontinues.consistent.generate_of_remembered helongate hmemory hvalue
    exact ⟨hcontinues.trans hgenerate, hgives⟩
  | none =>
    obtain ⟨b, x, hevaluate, hgrows, hstart, hx⟩ := evaluate_grows hvalue
    have hkeep := hcontinues.consistent.keep hgrows hstart
    obtain ⟨hgenerate, hgives⟩ := hkeep.consistent.generate_of_evaluate helongate hmemory
      hevaluate (recognizes_keep { g₀ with builder := b } hx) hvalue
    exact ⟨(hcontinues.trans hkeep).trans hgenerate, hgives⟩

/-- Without a language there is one error, which depends only on the alphabet. -/
theorem gives_no_language {a : Alphabet} {p c : Text} (hc : canonical a p = .ok c)
    (hvalue : ∀ L, (Program.ofText a c).value a.operating [] ≠ some [L]) :
    ∃ e, ∀ g : Generator, g.Consistent → g.alphabet = a →
      g.Continues (g.generate p).1 ∧ Gives (g.generate p) (.error (.pattern e)) := by
  obtain ⟨e, hevaluate⟩ := evaluate_grows_of_no_value hvalue
  refine ⟨e, ?_⟩
  rintro g hg rfl
  obtain ⟨g₀, helongate, hcontinues⟩ := hg.elongate_eq hc
  have hmemory : (if g₀.caching then g₀.automata.get? c else none) = none := by
    split
    · -- an automaton that is remembered would have a language
      refine Option.eq_none_iff_forall_ne_some.2 fun h hget => ?_
      obtain ⟨_, hremembered⟩ := hcontinues.consistent.automata c h hget
      rw [hcontinues.alphabet] at hremembered
      exact hvalue _ hremembered
    · rfl
  obtain ⟨b, heq, hgrows⟩ := hevaluate g₀ hcontinues.alphabet
  have hgenerate : g.generate p = ({ g₀ with builder := b }, .error (.pattern e)) := by
    simp only [generate, helongate, hmemory, heq]
  rw [hgenerate]
  exact ⟨hcontinues.trans (hcontinues.consistent.build hgrows), rfl⟩

/-- For each pattern there is one answer, which all consistent generators for an alphabet give. -/
theorem exists_answer (a : Alphabet) (p : Text) :
    ∃ answer, ∀ g : Generator, g.Consistent → g.alphabet = a →
      g.Continues (g.generate p).1 ∧ Gives (g.generate p) answer := by
  cases hc : canonical a p with
  | error e =>
    refine ⟨.error (.pattern e), ?_⟩
    rintro g hg rfl
    exact hg.gives_error hc
  | ok c =>
    by_cases hvalue : ∃ L, (Program.ofText a c).value a.operating [] = some [L]
    · obtain ⟨L, hvalue⟩ := hvalue
      refine ⟨.ok L, ?_⟩
      rintro g hg rfl
      exact hg.gives_language hc hvalue
    · obtain ⟨e, he⟩ := gives_no_language hc (not_exists.1 hvalue)
      exact ⟨_, he⟩

/-- A pattern that there is an automaton for has a canonical form with the language of the
automaton. -/
theorem Consistent.value_of_generate (hg : g.Consistent) {p : Text}
    (hgenerate : g.generate p = (g', .ok h)) :
    g.Continues g' ∧ ∃ c L, canonical g.alphabet p = .ok c ∧
      (Program.ofText g.alphabet c).value g.alphabet.operating [] = some [L] ∧
      g'.Recognizes h L := by
  cases hc : canonical g.alphabet p with
  | error e =>
    obtain ⟨_, hgives⟩ := hg.gives_error hc
    rw [hgenerate] at hgives
    cases hgives
  | ok c =>
    by_cases hvalue : ∃ L, (Program.ofText g.alphabet c).value g.alphabet.operating [] = some [L]
    · obtain ⟨L, hvalue⟩ := hvalue
      obtain ⟨hcontinues, hgives⟩ := hg.gives_language hc hvalue
      rw [hgenerate] at hcontinues hgives
      obtain ⟨_, ⟨⟩, hr⟩ := hgives
      exact ⟨hcontinues, c, L, rfl, hvalue, hr⟩
    · obtain ⟨e, he⟩ := gives_no_language hc (not_exists.1 hvalue)
      obtain ⟨_, hgives⟩ := he g hg rfl
      rw [hgenerate] at hgives
      cases hgives

theorem Consistent.generate (hg : g.Consistent) (p : Text) : g.Provides (g.generate p) := by
  obtain ⟨answer, hanswer⟩ := exists_answer g.alphabet p
  obtain ⟨hcontinues, hgives⟩ := hanswer g hg rfl
  refine ⟨hcontinues, fun h hh => ?_⟩
  cases answer with
  | error e => cases hgives.symm.trans hh
  | ok L =>
    obtain ⟨i, hi, hr⟩ := hgives
    cases hi.symm.trans hh
    exact hr.valid

end Generator

end RegexAutomata
