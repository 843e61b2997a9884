/-
Combining automata that have been made before.

The operators ask little of their operands.  Two operands have no vertex in common, and an inverted
one is marked as deterministic.  Edges may lead back to a start, edges that consume nothing may run
in circles, accepting vertices may have edges or be out of reach, and the mark may be wrong.  What
the operands have noted does not matter either.

* `Builder.language_of_concatenate`, `language_of_union`, `language_of_star` — what is made;
* `Generator.accepts_combined` — what it accepts, and what happens if an operand is not fit.
-/
import RegexAutomata.Proofs.Automaton.Fragment
import RegexAutomata.Proofs.Compile.Generate

open scoped Computability

namespace RegexAutomata

/-! ### Operands -/

namespace Automaton

variable {a : Automaton} {g : Graph}

/-- The vertex is one of the automaton's: it can be reached, or the automaton accepts there. -/
def Owns (a : Automaton) (g : Graph) (v : Nat) : Prop := g.Reaches a.start v ∨ v ∈ a.accepting

/-- An operator can be applied: the automaton is not inverted, or it is marked as
deterministic. -/
def Fit (a : Automaton) : Prop := a.inverted = true → a.deterministic = true

theorem uninverted_eq_none (h : ¬ a.Fit) : a.uninverted? g = none := by
  obtain ⟨hinverted, hmark⟩ := Classical.not_imp.1 h
  have hmark : a.deterministic = false := Bool.eq_false_iff.2 hmark
  rw [uninverted?, hinverted, hmark]
  rfl

/-- What an operator makes of its operand first: the automaton without inversion, whose vertices
are among those of the operand. -/
theorem Fit.exists_uninverted (h : a.Fit) (hin : ∀ v, a.Owns g v → v < g.size) :
    ∃ b, a.uninverted? g = some b ∧ b.Within g (g.Reaches a.start) ∧ b.Inside g ∧
      (∀ v ∈ b.accepting, a.Owns g v) ∧ b.language g = a.language g := by
  obtain ⟨b, hb⟩ := uninverted_of_deterministic (g := g) h
  have hstart : b.start = a.start := start_of_uninverted hb
  have howns : ∀ v ∈ b.accepting, a.Owns g v :=
    fun v hv => (accepting_of_uninverted hb hv).symm
  refine ⟨b, hb, ⟨fun u hu v hv => hu.tail hv, hstart ▸ .refl, inverted_of_uninverted hb⟩,
    ⟨hstart ▸ hin _ (.inl .refl), fun v hv => hin v (howns v hv)⟩, howns, language_uninverted hb⟩

end Automaton

namespace Builder

variable {b : Builder} {f s : Automaton}

/-- What can be reached from a vertex of the graph is a vertex of the graph, and the next one is
not. -/
theorem outside_of_owns {f' : Automaton} (hin : ∀ v, f.Owns b.graph v → v < b.graph.size)
    (howns : ∀ v ∈ f'.accepting, f.Owns b.graph v) {v : Nat} (hv : b.graph.size ≤ v) :
    f'.Outside (b.graph.Reaches f.start) v :=
  ⟨fun h => absurd (hin v (.inl h)) hv.not_gt, fun h => absurd (hin v (howns v h)) hv.not_gt⟩

/-- An automaton whose vertices are not those of another one does not accept there. -/
theorem avoids_of_owns {f' : Automaton} (hdisjoint : ∀ v, f.Owns b.graph v → ¬ s.Owns b.graph v)
    (howns : ∀ v ∈ f'.accepting, f.Owns b.graph v) : f'.Avoids (b.graph.Reaches s.start) :=
  fun v hv hs => hdisjoint v (howns v hv) (.inl hs)

section

variable (hf : f.Fit) (hfin : ∀ v, f.Owns b.graph v → v < b.graph.size)

include hf hfin

theorem language_of_star :
    ∃ b' a, b.star? f = (b', some a) ∧ a.language b'.graph = (f.language b.graph)∗ := by
  obtain ⟨f', hf', hfw, hfi, hfo, hfl⟩ := hf.exists_uninverted hfin
  obtain ⟨b', heq, _, hE⟩ := star_spec hf' hfi
  refine ⟨b', _, heq, ?_⟩
  rw [← hfl]
  exact Automaton.language_star hfw (bare_size _).1 (bare_size _).2 (Nat.lt_succ_self _).ne
    (outside_of_owns hfin hfo (le_refl _)) (outside_of_owns hfin hfo (Nat.le_succ _)) hE

variable (hs : s.Fit) (hsin : ∀ v, s.Owns b.graph v → v < b.graph.size)
  (hdisjoint : ∀ v, f.Owns b.graph v → ¬ s.Owns b.graph v)

include hs hsin hdisjoint

theorem language_of_concatenate :
    ∃ b' a, b.concatenate? f s = (b', some a) ∧
      a.language b'.graph = f.language b.graph * s.language b.graph := by
  obtain ⟨f', hf', hfw, hfi, hfo, hfl⟩ := hf.exists_uninverted hfin
  obtain ⟨s', hs', hsw, hsi, hso, hsl⟩ := hs.exists_uninverted hsin
  obtain ⟨b', heq, hE⟩ := concatenate_spec hf' hs' hfi hsi
  refine ⟨b', _, heq, ?_⟩
  rw [← hfl, ← hsl]
  exact Automaton.language_concatenate hfw hsw (avoids_of_owns hdisjoint hfo)
    (avoids_of_owns (fun v hv hv' => hdisjoint v hv' hv) hso) hE

theorem language_of_union :
    ∃ b' a, b.union? f s = (b', some a) ∧
      a.language b'.graph = f.language b.graph + s.language b.graph := by
  obtain ⟨f', hf', hfw, hfi, hfo, hfl⟩ := hf.exists_uninverted hfin
  obtain ⟨s', hs', hsw, hsi, hso, hsl⟩ := hs.exists_uninverted hsin
  obtain ⟨b', heq, _, hE⟩ := union_spec hf' hs' hfi hsi
  refine ⟨b', _, heq, ?_⟩
  rw [← hfl, ← hsl]
  exact Automaton.language_union hfw hsw (avoids_of_owns hdisjoint hfo)
    (avoids_of_owns (fun v hv hv' => hdisjoint v hv' hv) hso) (bare_size _).1 (bare_size _).2
    (Nat.lt_succ_self _).ne (outside_of_owns hfin hfo (le_refl _))
    (outside_of_owns hfin hfo (Nat.le_succ _)) (outside_of_owns hsin hso (le_refl _))
    (outside_of_owns hsin hso (Nat.le_succ _)) hE

end

/-- An operator that cannot be applied makes nothing and leaves the builder as it is. -/
theorem star_of_not_fit (h : ¬ f.Fit) : b.star? f = (b, none) := by
  simp only [star?, Automaton.uninverted_eq_none h]

theorem concatenate_of_not_fit (h : ¬ (f.Fit ∧ s.Fit)) : b.concatenate? f s = (b, none) := by
  unfold concatenate?
  rcases not_and_or.1 h with h | h
  · rw [Automaton.uninverted_eq_none h]
  · rw [Automaton.uninverted_eq_none h]
    cases f.uninverted? b.graph <;> rfl

theorem union_of_not_fit (h : ¬ (f.Fit ∧ s.Fit)) : b.union? f s = (b, none) := by
  unfold union?
  rcases not_and_or.1 h with h | h
  · rw [Automaton.uninverted_eq_none h]
  · rw [Automaton.uninverted_eq_none h]
    cases f.uninverted? b.graph <;> rfl

end Builder

/-! ### Handles -/

namespace Generator

/-- The automaton of a handle has the vertex. -/
def Owns (g : Generator) (h : Handle) (v : Nat) : Prop := (g.acceptor h).automaton.Owns g.graph v

/-- An operator can be applied to the automaton of a handle. -/
def Fit (g : Generator) (h : Handle) : Prop := (g.acceptor h).automaton.Fit

/-- The automaton of a handle accepts the sequence, as far as its edges go: nothing is noted or
looked up. -/
def Takes (g : Generator) (h : Handle) (w : List Symbol) : Prop :=
  (g.acceptor h).automaton.accepts g.graph w = true

theorem takes_iff {g : Generator} {h : Handle} {w : List Symbol} :
    g.Takes h w ↔ w ∈ (g.acceptor h).automaton.language g.graph :=
  Automaton.accepts_iff

/-- What an operator has made is kept without notes. -/
theorem keepBuilt?_some (g : Generator) (b : Builder) (a : Automaton) :
    ∃ g' h, g.keepBuilt? (b, some a) = (g', .ok h) ∧
      ∀ w, (g'.accepts h w).2 = true ↔ w ∈ a.language b.graph :=
  ⟨_, _, rfl, (recognizes_keep { g with builder := b } rfl).accepts_iff⟩

theorem keepBuilt?_none (g : Generator) :
    g.keepBuilt? (g.builder, none) = (g, .error .notDeterministic) := rfl

/-- Operators on two automata of any shape without a common vertex, and with any notes, make an
automaton of what the two accepted before.  An operand that is inverted and not marked as
deterministic is refused, and then nothing has changed. -/
theorem accepts_combined (g : Generator) (f s : Handle)
    (hf : ∀ v, g.Owns f v → v < g.graph.size) (hs : ∀ v, g.Owns s v → v < g.graph.size)
    (hdisjoint : ∀ v, g.Owns f v → ¬ g.Owns s v) :
    (g.Fit f ∧ g.Fit s →
        (∃ g' h, g.concatenate f s = (g', .ok h) ∧ ∀ w, (g'.accepts h w).2 = true ↔
          ∃ y z, w = y ++ z ∧ g.Takes f y ∧ g.Takes s z) ∧
        ∃ g' h, g.union f s = (g', .ok h) ∧ ∀ w, (g'.accepts h w).2 = true ↔
          g.Takes f w ∨ g.Takes s w) ∧
      (g.Fit f → ∃ g' h, g.star f = (g', .ok h) ∧ ∀ w, (g'.accepts h w).2 = true ↔
        ∃ ys : List (List Symbol), w = ys.flatten ∧ ∀ y ∈ ys, g.Takes f y) ∧
      (¬ (g.Fit f ∧ g.Fit s) → g.concatenate f s = (g, .error .notDeterministic) ∧
        g.union f s = (g, .error .notDeterministic)) ∧
      (¬ g.Fit f → g.star f = (g, .error .notDeterministic)) := by
  refine ⟨fun ⟨hf', hs'⟩ => ⟨?_, ?_⟩, fun hf' => ?_, fun h => ⟨?_, ?_⟩, fun h => ?_⟩
  · obtain ⟨b, a, heq, hlanguage⟩ :=
      Builder.language_of_concatenate (b := g.builder) hf' hf hs' hs hdisjoint
    obtain ⟨g', h, hkeep, haccepts⟩ := g.keepBuilt?_some b a
    refine ⟨g', h, by rw [concatenate, heq, hkeep], fun w => ?_⟩
    rw [haccepts, hlanguage, Language.mem_mul]
    constructor
    · rintro ⟨y, hy, z, hz, rfl⟩
      exact ⟨y, z, rfl, takes_iff.2 hy, takes_iff.2 hz⟩
    · rintro ⟨y, z, rfl, hy, hz⟩
      exact ⟨y, takes_iff.1 hy, z, takes_iff.1 hz, rfl⟩
  · obtain ⟨b, a, heq, hlanguage⟩ :=
      Builder.language_of_union (b := g.builder) hf' hf hs' hs hdisjoint
    obtain ⟨g', h, hkeep, haccepts⟩ := g.keepBuilt?_some b a
    refine ⟨g', h, by rw [union, heq, hkeep], fun w => ?_⟩
    rw [haccepts, hlanguage, takes_iff, takes_iff]
    rfl
  · obtain ⟨b, a, heq, hlanguage⟩ := Builder.language_of_star (b := g.builder) hf' hf
    obtain ⟨g', h, hkeep, haccepts⟩ := g.keepBuilt?_some b a
    refine ⟨g', h, by rw [star, heq, hkeep], fun w => ?_⟩
    rw [haccepts, hlanguage, Language.mem_kstar]
    simp only [takes_iff]
    rfl
  · rw [concatenate, Builder.concatenate_of_not_fit h, keepBuilt?_none]
  · rw [union, Builder.union_of_not_fit h, keepBuilt?_none]
  · rw [star, Builder.star_of_not_fit h, keepBuilt?_none]

/-- An inverted automaton that is at one of two places, and one that goes in circles without
reading and also accepts where it cannot get.  What they have noted is wrong. -/
def crooked : Generator :=
  { new (.ofText ['a', 'b']) true true with
    builder :=
      { Builder.new with
        graph :=
          { nodes := #[⟨0, [("a", 1)], [], []⟩, ⟨1, [("a", 0)], [], []⟩, ⟨2, [], [3], []⟩,
              ⟨3, [("b", 2)], [2], []⟩, ⟨4, [("a", 2)], [4], []⟩]
            closed := by decide }
        nextId := 5 }
    acceptors :=
      #[⟨⟨0, .singleton 1, true, true⟩, true, Memo.empty.put (.singleton 0) "a" .empty⟩,
        ⟨⟨2, .ofList [2, 4], false, false⟩, true, Memo.empty.put (.singleton 2) "a" .empty⟩] }

theorem accepts_combined_crooked :
    (∀ v, crooked.Owns 0 v → v < crooked.graph.size) ∧
      (∀ v, crooked.Owns 1 v → v < crooked.graph.size) ∧
      (∀ v, crooked.Owns 0 v → ¬ crooked.Owns 1 v) ∧
      (∃ g h, crooked.concatenate 0 1 = (g, .ok h) ∧ (g.accepts h ["a", "a", "b"]).2 = true) ∧
      ∃ g h, crooked.star 0 = (g, .ok h) ∧ (g.accepts h ["a", "a"]).2 = true := by
  have hfirst : ∀ v, crooked.Owns 0 v → v < 2 := by
    have hregion : ∀ u < 2, ∀ v ∈ (crooked.graph.node u).targets, v < 2 := by decide
    rintro v (hv | hv)
    · exact Graph.Region.of_reaches (F := (· < 2)) hregion (by decide) hv
    · rw [VertexSet.mem_singleton.1 hv]
      decide
  have hsecond : ∀ v, crooked.Owns 1 v → 2 ≤ v ∧ v < 5 := by
    have hregion : ∀ u < 5, 2 ≤ u → ∀ v ∈ (crooked.graph.node u).targets, 2 ≤ v ∧ v < 5 := by
      decide
    rintro v (hv | hv)
    · refine Graph.Region.of_reaches (F := fun v => 2 ≤ v ∧ v < 5) ?_ (by decide) hv
      exact fun u hu => hregion u hu.2 hu.1
    · rcases List.mem_pair.1 (VertexSet.mem_ofList.1 hv) with rfl | rfl <;> decide
  have hin : ∀ v, crooked.Owns 0 v → v < crooked.graph.size :=
    fun v hv => (hfirst v hv).trans (by decide)
  have hin' : ∀ v, crooked.Owns 1 v → v < crooked.graph.size := fun v hv => (hsecond v hv).2
  have hdisjoint : ∀ v, crooked.Owns 0 v → ¬ crooked.Owns 1 v :=
    fun v hv hv' => absurd (hfirst v hv) (hsecond v hv').1.not_gt
  obtain ⟨hpair, hstar, -, -⟩ := accepts_combined crooked 0 1 hin hin' hdisjoint
  have hfit : crooked.Fit 0 ∧ crooked.Fit 1 := ⟨fun _ => rfl, nofun⟩
  have hloop : crooked.Takes 0 ["a", "a"] := by
    unfold Takes
    decide +kernel
  have hcircle : crooked.Takes 1 ["b"] := by
    unfold Takes
    decide +kernel
  obtain ⟨⟨g, h, hmade, haccepts⟩, -⟩ := hpair hfit
  obtain ⟨g', h', hmade', haccepts'⟩ := hstar hfit.1
  refine ⟨hin, hin', hdisjoint, ⟨g, h, hmade, (haccepts _).2 ?_⟩, g', h', hmade',
    (haccepts' _).2 ?_⟩
  · exact ⟨["a", "a"], ["b"], rfl, hloop, hcircle⟩
  · exact ⟨[["a", "a"]], rfl, List.forall_mem_singleton.2 hloop⟩

end Generator

end RegexAutomata
