/-
Complements of complements.

The first complement of an automaton is built by the subset construction.  It is deterministic,
and so are all complements of it, which are made by inverting it and share its vertices.

* `Generator.Complemented.next` — one more complement, from one that is deterministic;
* `Generator.accepts_complementTimes` — what a generator's complement accepts after any number
  of applications;
* `Generator.accepts_complementOver_complementOver` — what the complement over one alphabet of a
  complement over another alphabet accepts.
-/
import Mathlib.Algebra.Ring.Parity
import RegexAutomata.Proofs.Automaton.Determinization
import RegexAutomata.Proofs.Automaton.Remembering

namespace RegexAutomata

namespace Generator

variable {g : Generator} {h : Handle}

/-- The complement of an automaton that the memory of complements does not know: it is made anew,
kept under the next handle, and remembered under the old one at most. -/
theorem complement_of_unknown (hget : g.complements.get? h = none) :
    ∃ g', g.complement h = (g', g.acceptors.size) ∧ g'.alphabet = g.alphabet ∧
      g'.acceptors.size = g.acceptors.size + 1 ∧
      g'.acceptor g.acceptors.size = .ofAutomaton
        (g.builder.complement g.alphabet.operating (g.acceptor h).automaton).2 ∧
      g'.graph = (g.builder.complement g.alphabet.operating (g.acceptor h).automaton).1.graph ∧
      ∀ i, i ≠ h → g'.complements.get? i = g.complements.get? i := by
  set built := g.builder.complement g.alphabet.operating (g.acceptor h).automaton with hbuilt
  have hover : g.complementOver g.alphabet h =
      ({ g with builder := built.1 }.keep (.ofAutomaton built.2)) := rfl
  have hacceptor := acceptor_keep { g with builder := built.1 } (.ofAutomaton built.2)
  unfold complement
  -- the memory is asked only if it is in use, and it does not know the automaton
  by_cases hc : g.complementCaching = true
  · rw [if_pos hc, hget, hover]
    refine ⟨_, rfl, rfl, by simp, hacceptor, rfl, fun i hi => ?_⟩
    exact (Table.get?_put g.complements h i _).trans (if_neg hi)
  · rw [if_neg hc, hover]
    exact ⟨_, rfl, rfl, by simp, hacceptor, rfl, fun _ _ => rfl⟩

/-- The complement, taken a number of times. -/
def complementTimes (g : Generator) (h : Handle) : Nat → Generator × Handle
  | 0 => (g, h)
  | k + 1 =>
    let (g, h) := g.complementTimes h k
    g.complement h

/-- The sequences of some symbols whose membership in a language differs from the parity of a
number. -/
def differing (symbols : List Symbol) (L : Language Symbol) (k : Nat) : Language Symbol :=
  {w | Over symbols w ∧ ¬(w ∈ L ↔ Odd k)}

theorem differing_one (symbols : List Symbol) (L : Language Symbol) :
    differing symbols L 1 = complementIn symbols L := by
  ext w
  rw [mem_complementIn]
  show Over symbols w ∧ ¬(w ∈ L ↔ Odd 1) ↔ Over symbols w ∧ w ∉ L
  simp

theorem differing_succ (symbols : List Symbol) (L : Language Symbol) (k : Nat) :
    differing symbols L (k + 1) = complementIn symbols (differing symbols L k) := by
  ext w
  rw [mem_complementIn]
  show Over symbols w ∧ ¬(w ∈ L ↔ Odd (k + 1)) ↔
    Over symbols w ∧ ¬(Over symbols w ∧ ¬(w ∈ L ↔ Odd k))
  rw [Nat.odd_add_one]
  tauto

/-- What holds after at least one complement: the automaton that was made last is deterministic,
no memory knows it, and it accepts the differing sequences. -/
structure Complemented (symbols : List Symbol) (L : Language Symbol) (k : Nat) (g : Generator)
    (h : Handle) (d : Automaton) : Prop where
  alphabet : g.alphabet.operating = symbols
  last : h + 1 = g.acceptors.size
  unknown : ∀ i, h ≤ i → g.complements.get? i = none
  acceptor : g.acceptor h = .ofAutomaton d
  deterministic : d.deterministic = true
  total : d.TotalOver g.graph symbols
  language : d.language g.graph = differing symbols L k

variable {symbols : List Symbol} {L : Language Symbol} {k : Nat} {d : Automaton}

theorem complemented_first (hlt : h < g.acceptors.size) (hfresh : g.complements = [])
    (hdet : (g.acceptor h).automaton.deterministic = false) :
    ∃ d, Complemented g.alphabet.operating ((g.acceptor h).automaton.language g.graph) 1
      (g.complement h).1 (g.complement h).2 d := by
  have hget : ∀ i, g.complements.get? i = none := fun i => by rw [hfresh]; rfl
  obtain ⟨g', heq, halph, hsize, hacc, hgraph, hothers⟩ := complement_of_unknown (hget h)
  have hbuilt : g.builder.complement g.alphabet.operating (g.acceptor h).automaton =
      g.builder.subsetComplement g.alphabet.operating (g.acceptor h).automaton := by
    rw [Builder.complement, if_neg (by simp [hdet])]
  have hspec := Builder.determinizes_subsetComplement g.builder g.alphabet.operating
    (g.acceptor h).automaton
  rw [hbuilt] at hacc hgraph
  rw [heq]
  refine ⟨_, by rw [halph], hsize.symm, fun i hi => ?_, hacc, hspec.deterministic, ?_, ?_⟩
  · -- the one new entry belongs to an older handle
    have hne : i ≠ h := (Nat.lt_of_lt_of_le hlt hi).ne'
    rw [hothers i hne, hget]
  · rw [hgraph]
    exact hspec.total
  · rw [hgraph, differing_one]
    exact hspec.language

/-- One more complement only inverts the automaton. -/
theorem Complemented.next (hk : Complemented symbols L k g h d) :
    Complemented symbols L (k + 1) (g.complement h).1 (g.complement h).2 d.invert := by
  obtain ⟨g', heq, halph, hsize, hacc, hgraph, hothers⟩ :=
    complement_of_unknown (hk.unknown h (le_refl _))
  have hbuilt : g.builder.complement g.alphabet.operating (g.acceptor h).automaton =
      (g.builder, d.invert) := by
    rw [hk.acceptor, Builder.complement]
    exact if_pos hk.deterministic
  rw [hbuilt] at hacc hgraph
  have hlast : h + 1 = g.acceptors.size := hk.last
  rw [heq]
  refine ⟨by rw [halph, hk.alphabet], hsize.symm, fun i hi => ?_, hacc, hk.deterministic, ?_, ?_⟩
  · have hlt : h < i := Nat.lt_of_lt_of_le hlast.le hi
    rw [hothers i hlt.ne', hk.unknown i hlt.le]
  · rw [hgraph]
    exact hk.total.invert
  · rw [hgraph, differing_succ, ← hk.language]
    exact hk.total.language_invert

/-- A generator that has taken no complements takes the complement of an automaton that is not
marked as deterministic, then the complement of the result, and so on.  What the k-th one accepts
are the sequences of visible symbols for which the automaton's answer differs from whether `k`
is odd. -/
theorem accepts_complementTimes (g : Generator) (h : Handle) (hlt : h < g.acceptors.size)
    (hfresh : g.complements = []) (hdet : (g.acceptor h).automaton.deterministic = false) (k : Nat)
    (hk : 1 ≤ k) (w : List Symbol) :
    ((g.complementTimes h k).1.accepts (g.complementTimes h k).2 w).2 = true ↔
      (∀ s ∈ w, s ∈ g.alphabet.operating) ∧
        (g.acceptor h).automaton.accepts g.graph w ≠ decide (Odd k) := by
  have hrun : ∃ d, Complemented g.alphabet.operating
      ((g.acceptor h).automaton.language g.graph) k (g.complementTimes h k).1
      (g.complementTimes h k).2 d := by
    induction k, hk using Nat.le_induction with
    | base => exact complemented_first hlt hfresh hdet
    | succ k _ ih =>
      obtain ⟨d, hd⟩ := ih
      exact ⟨_, hd.next⟩
  obtain ⟨d, hd⟩ := hrun
  have hfaithful : ((g.complementTimes h k).1.acceptor (g.complementTimes h k).2).Faithful
      (g.complementTimes h k).1.graph := by
    rw [hd.acceptor]
    exact Acceptor.faithful_ofAutomaton d _
  rw [accepts_iff_of_faithful hfaithful, hd.acceptor]
  show w ∈ d.language (g.complementTimes h k).1.graph ↔ _
  rw [hd.language]
  refine and_congr_right fun _ => not_congr ?_
  rw [← Automaton.accepts_iff, Bool.eq_iff_iff (b := decide (Odd k)), decide_eq_true_iff]

/-- A generator that has made the automaton of the one symbol of its alphabet. -/
def oneSymbol : Generator := ((new (.ofText ['a']) true true).atom (.one "a")).1

theorem accepts_complementTimes_three :
    0 < oneSymbol.acceptors.size ∧ oneSymbol.complements = [] ∧
      (oneSymbol.acceptor 0).automaton.deterministic = false ∧
      ((oneSymbol.complementTimes 0 3).1.accepts (oneSymbol.complementTimes 0 3).2
        ["(", "a"]).2 = true := by
  have hlt : 0 < oneSymbol.acceptors.size := by decide
  have hdet : (oneSymbol.acceptor 0).automaton.deterministic = false := by decide
  have hover : ∀ s ∈ ["(", "a"], s ∈ oneSymbol.alphabet.operating := by
    intro s hs
    rw [Alphabet.mem_operating]
    revert s
    decide
  have hrejects : (oneSymbol.acceptor 0).automaton.accepts oneSymbol.graph ["(", "a"] = false := by
    decide +kernel
  refine ⟨hlt, rfl, hdet, ?_⟩
  rw [accepts_complementTimes oneSymbol 0 hlt rfl hdet 3 (by decide), hrejects]
  exact ⟨hover, by decide⟩

/-! ### Two alphabets -/

/-- The complement of an automaton that is marked as deterministic is the same over all
alphabets. -/
theorem complementOver_of_deterministic (hdet : (g.acceptor h).automaton.deterministic = true)
    (A : Alphabet) :
    (g.complementOver A h).1.acceptor (g.complementOver A h).2 =
        .ofAutomaton (g.acceptor h).automaton.invert ∧
      (g.complementOver A h).1.graph = g.graph := by
  have hbuilt : g.builder.complement A.operating (g.acceptor h).automaton =
      (g.builder, (g.acceptor h).automaton.invert) := by
    rw [Builder.complement]
    exact if_pos hdet
  rw [complementOver, hbuilt]
  exact ⟨acceptor_keep _ _, rfl⟩

/-- The complement over an alphabet, if the automaton either is not marked as deterministic or is
total over that alphabet. -/
theorem complementOver_spec (g : Generator) (h : Handle) (A : Alphabet)
    (htotal : (g.acceptor h).automaton.deterministic = true →
      (g.acceptor h).automaton.TotalOver g.graph A.operating) :
    ∃ d, (g.complementOver A h).1.acceptor (g.complementOver A h).2 = .ofAutomaton d ∧
      d.deterministic = true ∧ d.TotalOver (g.complementOver A h).1.graph A.operating ∧
      d.language (g.complementOver A h).1.graph =
        complementIn A.operating ((g.acceptor h).automaton.language g.graph) := by
  by_cases hdet : (g.acceptor h).automaton.deterministic = true
  · obtain ⟨hacceptor, hgraph⟩ := complementOver_of_deterministic hdet A
    rw [hgraph]
    exact ⟨_, hacceptor, hdet, (htotal hdet).invert, (htotal hdet).language_invert⟩
  · have hbuilt : g.builder.complement A.operating (g.acceptor h).automaton =
        g.builder.subsetComplement A.operating (g.acceptor h).automaton := by
      rw [Builder.complement, if_neg hdet]
    have hspec := Builder.determinizes_subsetComplement g.builder A.operating
      (g.acceptor h).automaton
    rw [complementOver, hbuilt]
    exact ⟨_, acceptor_keep _ _, hspec.deterministic, hspec.total, hspec.language⟩

/-- An automaton that has just been made has no notes. -/
theorem accepts_iff_of_ofAutomaton {a : Automaton} (ha : g.acceptor h = .ofAutomaton a)
    {w : List Symbol} : (g.accepts h w).2 = true ↔ w ∈ a.language g.graph := by
  have hfaithful : (g.acceptor h).Faithful g.graph := by
    rw [ha]
    exact Acceptor.faithful_ofAutomaton a _
  rw [accepts_iff_of_faithful hfaithful, ha]
  rfl

/-- What a complement leaves out is the same over its own symbols and over others just if all of the
others are its own and they are enough for the language. -/
theorem complementIn_complementIn_iff {symbols others : List Symbol} {L : Language Symbol} :
    (∀ w, (Over symbols w ∧ w ∉ complementIn symbols L) ↔
        (Over others w ∧ w ∉ complementIn symbols L)) ↔
      (∀ s ∈ others, s ∈ symbols) ∧ ∀ w, Over symbols w → w ∈ L → Over others w := by
  have hleft : ∀ w, w ∉ complementIn symbols L ↔ (Over symbols w → w ∈ L) := fun w => by
    rw [mem_complementIn, not_and, not_not]
  simp only [hleft]
  constructor
  · intro hsame
    refine ⟨fun s hs => ?_, fun w hw hwL => ((hsame w).1 ⟨hw, fun _ => hwL⟩).1⟩
    -- no complement over the first symbols has a symbol that is not among them
    by_contra hnot
    have hs' : Over symbols [s] :=
      ((hsame [s]).2 ⟨over_singleton.2 hs, fun h => absurd (over_singleton.1 h) hnot⟩).1
    exact hnot (over_singleton.1 hs')
  · rintro ⟨hsymbols, hshared⟩ w
    constructor
    · rintro ⟨hw, hwL⟩
      exact ⟨hshared w hw (hwL hw), hwL⟩
    · rintro ⟨hw, hwL⟩
      exact ⟨fun s hs => hsymbols s (hw s hs), hwL⟩

/-- The second of two complements only inverts the first one, which reads no symbols but those of
its alphabet.  So it accepts what the first one rejects over the alphabet of the first one.  What
the first one rejects over the other alphabet is the same only if that has no symbols of its own,
and if all its symbols are enough for what the automaton accepts. -/
theorem accepts_complementOver_complementOver (g : Generator) (h : Handle)
    (hdet : (g.acceptor h).automaton.deterministic = false) (A B : Alphabet) :
    let d := g.complementOver A h
    let e := d.1.complementOver B d.2
    (∀ w, (d.1.accepts d.2 w).2 = true ↔
      Over A.operating w ∧ (g.acceptor h).automaton.accepts g.graph w = false) ∧
    (∀ w, (e.1.accepts e.2 w).2 = true ↔
      Over A.operating w ∧ (d.1.accepts d.2 w).2 = false) ∧
    ((∀ w, (e.1.accepts e.2 w).2 = true ↔
        Over B.operating w ∧ (d.1.accepts d.2 w).2 = false) ↔
      (∀ s ∈ B.operating, s ∈ A.operating) ∧
        ∀ w, Over A.operating w → (g.acceptor h).automaton.accepts g.graph w = true →
          Over B.operating w) := by
  intro d e
  set L := (g.acceptor h).automaton.language g.graph with hL
  obtain ⟨a, ha, hadet, htotal, hlanguage⟩ :=
    complementOver_spec g h A fun hd => absurd (hdet.symm.trans hd) Bool.false_ne_true
  have hdAutomaton : (d.1.acceptor d.2).automaton = a := congrArg Acceptor.automaton ha
  obtain ⟨hinverted, hgraph⟩ :=
    complementOver_of_deterministic (g := d.1) (h := d.2) (hdAutomaton ▸ hadet) B
  rw [hdAutomaton] at hinverted
  have hd : ∀ w, (d.1.accepts d.2 w).2 = true ↔ w ∈ complementIn A.operating L := fun w => by
    rw [accepts_iff_of_ofAutomaton ha, hlanguage]
  have hrejects : ∀ w, (d.1.accepts d.2 w).2 = false ↔ w ∉ complementIn A.operating L := by
    intro w
    rw [← Bool.not_eq_true, hd]
  have he : ∀ w, (e.1.accepts e.2 w).2 = true ↔
      Over A.operating w ∧ (d.1.accepts d.2 w).2 = false := by
    intro w
    rw [accepts_iff_of_ofAutomaton hinverted, hgraph, htotal.language_invert, mem_complementIn,
      hlanguage, hrejects]
  refine ⟨fun w => ?_, he, ?_⟩
  · rw [hd, mem_complementIn, ← Bool.not_eq_true, Automaton.accepts_iff]
  · simp only [he, hrejects, Automaton.accepts_iff]
    exact complementIn_complementIn_iff

/-- Neither the complement over one symbol nor the complement of that over two accepts the second
symbol. -/
theorem accepts_complementOver_complementOver_oneSymbol :
    (oneSymbol.acceptor 0).automaton.deterministic = false ∧
      let d := oneSymbol.complementOver (.ofText ['a']) 0
      let e := d.1.complementOver (.ofText ['a', 'b']) d.2
      Over (Alphabet.ofText ['a', 'b']).operating ["b"] ∧ (d.1.accepts d.2 ["b"]).2 = false ∧
        (e.1.accepts e.2 ["b"]).2 = false := by
  have hdet : (oneSymbol.acceptor 0).automaton.deterministic = false := by decide
  have hmem : ("b" : Symbol) ∈ (Alphabet.ofText ['a', 'b']).operating := by
    rw [Alphabet.mem_operating]
    decide
  have hnot : ("b" : Symbol) ∉ (Alphabet.ofText ['a']).operating := by
    rw [Alphabet.mem_operating]
    decide
  obtain ⟨hd, he, -⟩ := accepts_complementOver_complementOver oneSymbol 0 hdet (.ofText ['a'])
    (.ofText ['a', 'b'])
  refine ⟨hdet, over_singleton.2 hmem, ?_, ?_⟩
  · rw [← Bool.not_eq_true, hd]
    exact fun hw => hnot (over_singleton.1 hw.1)
  · rw [← Bool.not_eq_true, he]
    exact fun hw => hnot (over_singleton.1 hw.1)

end Generator

end RegexAutomata
