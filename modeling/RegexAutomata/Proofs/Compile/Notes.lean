/-
Which automata keep notes.

Whether an automaton notes its way is a matter of the automaton.  A new one does if the generator
says so, and nothing but a switch changes it later (`Generator.Keeps`); an automaton from memory is
handed out as it is.

* `Generator.Consistent.keeps_elongate`, `keeps_accepts`, `keeps_searchFrom` — what changes nothing;
* `Generator.Consistent.generate_cases` — where an automaton comes from.
-/
import RegexAutomata.Proofs.Compile.Memories
import RegexAutomata.Search

namespace RegexAutomata

namespace Acceptor

variable (x : Acceptor) (g : Graph)

theorem caching_advance (src : VertexSet) (s : Symbol) :
    (x.advance g src s).1.caching = x.caching := by
  unfold advance
  split
  · split <;> rfl
  · rfl

theorem caching_acceptsFrom (src : VertexSet) (w : List Symbol) :
    (acceptsFrom g x src w).1.caching = x.caching := by
  induction w generalizing x src with
  | nil => rfl
  | cons s w ih =>
    unfold acceptsFrom
    simp only
    split
    · exact caching_advance x g src s
    · exact (ih _ _).trans (caching_advance x g src s)

/-- Reading does not switch the notes on or off. -/
theorem caching_accepts (w : List Symbol) : (x.accepts g w).1.caching = x.caching :=
  caching_acceptsFrom x g _ w

end Acceptor

namespace Generator

variable {g g' g'' : Generator} {h : Handle}

/-- The second generator goes on from the first one, and no switch has been touched. -/
structure Keeps (g g' : Generator) : Prop where
  continues : g.Continues g'
  caching : g'.caching = g.caching
  transitionCaching : g'.transitionCaching = g.transitionCaching
  notes : ∀ h < g.acceptors.size, (g'.acceptor h).caching = (g.acceptor h).caching

theorem Consistent.keeps_refl (hg : g.Consistent) : g.Keeps g := ⟨hg.refl, rfl, rfl, fun _ _ => rfl⟩

theorem Keeps.trans (h₁ : g.Keeps g') (h₂ : g'.Keeps g'') : g.Keeps g'' where
  continues := h₁.continues.trans h₂.continues
  caching := h₂.caching.trans h₁.caching
  transitionCaching := h₂.transitionCaching.trans h₁.transitionCaching
  notes h hh := (h₂.notes h (hh.trans_le h₁.continues.size)).trans (h₁.notes h hh)

theorem Consistent.keeps_forgetEvents (hg : g.Consistent) : g.Keeps g.forgetEvents :=
  ⟨hg.forgetEvents, rfl, rfl, fun _ _ => rfl⟩

/-- The canonical form of a pattern is looked up or made without the automata. -/
theorem elongate_eq (g : Generator) (p : Text) :
    ∃ b patterns, (g.elongate p).1 = { g with builder := b, patterns } := by
  unfold elongate
  split
  · exact ⟨_, _, rfl⟩
  · split
    · exact ⟨g.builder, g.patterns, rfl⟩
    · exact ⟨_, _, rfl⟩

theorem Consistent.keeps_elongate (hg : g.Consistent) (p : Text) : g.Keeps (g.elongate p).1 := by
  obtain ⟨hcontinues, -⟩ := hg.elongate p
  obtain ⟨b, patterns, heq⟩ := g.elongate_eq p
  rw [heq] at hcontinues ⊢
  exact ⟨hcontinues, rfl, rfl, fun _ _ => rfl⟩

theorem Consistent.keeps_accepts (hg : g.Consistent) (hh : h < g.acceptors.size)
    (w : List Symbol) : g.Keeps (g.accepts h w).1 where
  continues := hg.set hh ((hg.settled h hh).accepts w)
    (Acceptor.accepts_spec (hg.settled h hh).faithful w).2.2
  caching := rfl
  transitionCaching := rfl
  notes i _ := by
    show ((g.set h _).acceptor i).caching = _
    rw [acceptor_set _ hh]
    split
    · subst_vars
      exact Acceptor.caching_accepts _ _ w
    · rfl

theorem Consistent.keeps_searchFrom (hg : g.Consistent) (hh : h < g.acceptors.size)
    (number : Nat) (lines : List Text) : g.Keeps (searchFrom h number g lines).1 := by
  induction lines generalizing g number with
  | nil => exact hg.keeps_refl
  | cons line lines ih =>
    have hread := hg.keeps_accepts hh (Text.symbols (chomp line))
    exact hread.trans (ih hread.continues.consistent (hh.trans_le hread.continues.size) _)

theorem caching_set (g : Generator) (x : Acceptor) (hh : h < g.acceptors.size) :
    ((g.set h x).acceptor h).caching = x.caching := by
  rw [acceptor_set x hh, if_pos rfl]

/-! ### Where automata come from -/

/-- The generator has an automaton for the pattern in its memory, and may use it. -/
def Knows (g : Generator) (p : Text) (h : Handle) : Prop :=
  g.caching = true ∧ ∃ c, canonical g.alphabet p = .ok c ∧ g.automata.get? c = some h

theorem Consistent.lt_of_knows (hg : g.Consistent) {p : Text} (hknows : g.Knows p h) :
    h < g.acceptors.size := by
  obtain ⟨-, c, -, hget⟩ := hknows
  exact (hg.automata c h hget).1

/-- An automaton is made and kept, if the pattern has one. -/
theorem evaluate_cases (g : Generator) (c : Text) :
    (∃ b e, g.evaluate c = ({ g with builder := b }, .error e)) ∨
      ∃ b a, g.evaluate c =
        (({ g with builder := b }.keep (.ofAutomaton a)).1, .ok g.acceptors.size) := by
  unfold evaluate
  split
  · exact .inl ⟨_, _, rfl⟩
  · exact .inr ⟨_, _, rfl⟩

/-- What is known is handed out. -/
theorem Consistent.generate_of_knows (hg : g.Consistent) {p : Text} (hknows : g.Knows p h) :
    (g.generate p).2 = .ok h := by
  obtain ⟨hcaching, c, hc, hget⟩ := hknows
  obtain ⟨g₀, helongate, -⟩ := hg.elongate_eq hc
  obtain ⟨b, patterns, heq⟩ := g.elongate_eq p
  have hg₀ : g₀ = { g with builder := b, patterns } := by
    rw [← heq, helongate]
  have hmemory : (if g₀.caching then g₀.automata.get? c else none) = some h := by
    rw [hg₀]
    exact (if_pos hcaching).trans hget
  simp only [Generator.generate, helongate, hmemory]

/-- How a pattern is compiled that has a canonical form and is not known. -/
theorem generate_of_not_known {g₀ g₁ : Generator} {p c : Text}
    (helongate : g.elongate p = (g₀, .ok c))
    (hmemory : (if g₀.caching then g₀.automata.get? c else none) = none)
    (hevaluate : g₀.evaluate c = (g₁, .ok h)) :
    ∃ g', g.generate p = (g', .ok h) ∧ g'.caching = g₁.caching ∧
      g'.transitionCaching = g₁.transitionCaching ∧
      g'.acceptors = (if g₁.transitionCaching then g₁
        else g₁.set h (g₁.acceptor h).disableCaching).acceptors := by
  set g₂ := if g₁.transitionCaching then g₁ else g₁.set h (g₁.acceptor h).disableCaching with hg₂
  have hswitches : g₂.caching = g₁.caching ∧ g₂.transitionCaching = g₁.transitionCaching := by
    rw [hg₂]
    split <;> exact ⟨rfl, rfl⟩
  set g₃ := g₂.report (.compiled c ((g₂.acceptor h).automaton.vertices g₂.graph).size) with hg₃
  have heq : g.generate p =
      (if g₃.caching then { g₃ with automata := g₃.automata.put c h } else g₃, .ok h) := by
    simp only [generate, helongate, hmemory, hevaluate, ← hg₂, ← hg₃]
  refine ⟨_, heq, ?_, ?_, ?_⟩
  · split
    · exact hswitches.1
    · exact hswitches.1
  · split
    · exact hswitches.2
    · exact hswitches.2
  · split <;> rfl

/-- A new automaton keeps notes if the generator says so and it is not deterministic; the old ones
go on as before. -/
theorem caching_of_new (g : Generator) (a : Automaton) :
    let g₁ := (g.keep (.ofAutomaton a)).1
    let g₂ := if g₁.transitionCaching then g₁
      else g₁.set g.acceptors.size (g₁.acceptor g.acceptors.size).disableCaching
    (∀ h < g.acceptors.size, (g₂.acceptor h).caching = (g.acceptor h).caching) ∧
      (g₂.acceptor g.acceptors.size).caching = (g.transitionCaching &&
        !(g₂.acceptor g.acceptors.size).automaton.deterministic) := by
  intro g₁ g₂
  have hlast : g.acceptors.size < g₁.acceptors.size := by
    show g.acceptors.size < (g.acceptors.push _).size
    rw [Array.size_push]
    exact Nat.lt_succ_self _
  have hold : ∀ h < g.acceptors.size, g₁.acceptor h = g.acceptor h :=
    fun h hh => acceptor_keep_of_lt _ hh
  have hnew : g₁.acceptor g.acceptors.size = .ofAutomaton a := acceptor_keep g _
  have hswitch : g₁.transitionCaching = g.transitionCaching := rfl
  cases hc : g.transitionCaching with
  | true =>
    have hg₂ : g₂ = g₁ := if_pos (hswitch.trans hc)
    rw [hg₂, hnew]
    exact ⟨fun h hh => by rw [hold h hh], rfl⟩
  | false =>
    have hg₂ : g₂ = g₁.set g.acceptors.size (g₁.acceptor g.acceptors.size).disableCaching :=
      if_neg (by rw [hswitch, hc]; decide)
    rw [hg₂, acceptor_set _ hlast, if_pos rfl]
    refine ⟨fun h hh => ?_, rfl⟩
    rw [acceptor_set _ hlast, if_neg hh.ne, hold h hh]

/-- Compiling touches no switch, and an automaton that was not known keeps notes if the generator
says so and it is not deterministic. -/
theorem Consistent.generate_cases (hg : g.Consistent) (p : Text) :
    g.Keeps (g.generate p).1 ∧ ∀ h, (g.generate p).2 = .ok h → g.Knows p h ∨
      ((g.generate p).1.acceptor h).caching =
        (g.transitionCaching && !((g.generate p).1.acceptor h).automaton.deterministic) := by
  have hcontinues := (hg.generate p).continues
  have hkeeps := hg.keeps_elongate p
  cases hc : canonical g.alphabet p with
  | error e =>
    obtain ⟨g₀, helongate, -⟩ := hg.elongate_eq hc
    have heq : g.generate p = (g₀, .error (.pattern e)) := by
      simp only [Generator.generate, helongate]
    rw [helongate] at hkeeps
    rw [heq]
    exact ⟨hkeeps, fun _ h => by cases h⟩
  | ok c =>
    obtain ⟨g₀, helongate, -⟩ := hg.elongate_eq hc
    obtain ⟨b₀, patterns, hg₀⟩ := g.elongate_eq p
    rw [helongate] at hkeeps
    replace hg₀ : g₀ = { g with builder := b₀, patterns } := by rw [← hg₀, helongate]
    cases hmemory : if g₀.caching then g₀.automata.get? c else none with
    | some h =>
      have heq : g.generate p = (g₀.report (.automatonKnown c), .ok h) := by
        simp only [Generator.generate, helongate, hmemory]
      rw [heq] at hcontinues ⊢
      refine ⟨⟨hcontinues, hkeeps.caching, hkeeps.transitionCaching, hkeeps.notes⟩, ?_⟩
      rintro i hi
      cases hi
      rw [hg₀] at hmemory
      split at hmemory
      · rename_i hcaching
        exact .inl ⟨hcaching, c, hc, hmemory⟩
      · cases hmemory
    | none =>
      rcases g₀.evaluate_cases c with ⟨b, e, hevaluate⟩ | ⟨b, a, hevaluate⟩
      · have heq : g.generate p = ({ g₀ with builder := b }, .error e) := by
          simp only [Generator.generate, helongate, hmemory, hevaluate]
        rw [heq] at hcontinues ⊢
        exact ⟨⟨hcontinues, hkeeps.caching, hkeeps.transitionCaching, hkeeps.notes⟩,
          fun _ h => by cases h⟩
      · obtain ⟨g', heq, hcaching, htransition, hacceptors⟩ :=
          generate_of_not_known helongate hmemory hevaluate
        obtain ⟨hold, hnew⟩ := caching_of_new { g₀ with builder := b } a
        have hacceptor : ∀ i, g'.acceptor i = Generator.acceptor _ i :=
          fun i => congrArg (Array.getD · i _) hacceptors
        rw [heq] at hcontinues ⊢
        refine ⟨⟨hcontinues, hcaching.trans hkeeps.caching,
          htransition.trans hkeeps.transitionCaching, fun i hi => ?_⟩, fun i hi => .inr ?_⟩
        · rw [hacceptor, ← hkeeps.notes i hi]
          exact hold i (by rw [hg₀]; exact hi)
        · cases hi
          rw [hacceptor, ← hkeeps.transitionCaching]
          exact hnew

end Generator

end RegexAutomata
