/-
The numbers of the vertices while a pattern is compiled.

Numbers tell vertices apart, and there are two counters for them: vertices of fragments are counted up
from zero and vertices for sets down from minus one.  Whatever an instruction does, old vertices keep
their numbers, and the new ones take theirs from the counters, each once (`Builder.NumbersFreshly`).
Since each automaton on the stack owns a block of vertices (`Stacked`), no two of them have a number
in common, however many complements have been taken on the way.

* `Builder.NumbersFreshly.trans` — numbering goes on where it stopped;
* `Builder.stepRelation_numbersFreshly` — what each operator does;
* `Stacked.apart` — the vertices of the automata on the stack;
* `Builder.distinguishes_moment` — all moments of a compilation.
-/
import RegexAutomata.Proofs.Automaton.ReachableSets
import RegexAutomata.Proofs.Compile.Combination

namespace RegexAutomata

open RegexAutomata.Graph (Block)

namespace Builder

/-! ### Fresh numbers -/

/-- The second builder has gone on from the first one.  Old vertices keep their numbers, and new ones
have numbers of their own, which the counters of the second builder have passed and those of the first
one had not. -/
structure NumbersFreshly (b b' : Builder) : Prop where
  size : b.graph.size ≤ b'.graph.size
  nextId : b.nextId ≤ b'.nextId
  subsets : b.subsets ≤ b'.subsets
  old : ∀ v < b.graph.size, b'.graph.id v = b.graph.id v
  fresh : ∀ v, Block b.graph.size b'.graph.size v →
    ((b.nextId : Int) ≤ b'.graph.id v ∧ b'.graph.id v < b'.nextId) ∨
      (-(b'.subsets : Int) ≤ b'.graph.id v ∧ b'.graph.id v < -(b.subsets : Int))
  distinct : Set.InjOn b'.graph.id {v | Block b.graph.size b'.graph.size v}

variable {b b' b'' : Builder}

theorem NumbersFreshly.refl (b : Builder) : b.NumbersFreshly b where
  size := le_refl _
  nextId := le_refl _
  subsets := le_refl _
  old _ _ := rfl
  fresh _ hv := absurd hv.1 hv.2.not_ge
  distinct _ hu := absurd hu.1 hu.2.not_ge

/-- Numbering goes on where it stopped. -/
theorem NumbersFreshly.trans (h : b.NumbersFreshly b') (h' : b'.NumbersFreshly b'') :
    b.NumbersFreshly b'' := by
  have hnextId := h.nextId
  have hnextId' := h'.nextId
  have hsubsets := h.subsets
  have hsubsets' := h'.subsets
  -- a vertex of the second builder has one of the numbers given out first
  have hfirst : ∀ v, Block b.graph.size b'.graph.size v →
      ((b.nextId : Int) ≤ b''.graph.id v ∧ b''.graph.id v < b'.nextId) ∨
        (-(b'.subsets : Int) ≤ b''.graph.id v ∧ b''.graph.id v < -(b.subsets : Int)) := by
    intro v hv
    rw [h'.old v hv.2]
    exact h.fresh v hv
  have hcases : ∀ v, Block b.graph.size b''.graph.size v →
      Block b.graph.size b'.graph.size v ∨ Block b'.graph.size b''.graph.size v := by
    intro v hv
    rcases Nat.lt_or_ge v b'.graph.size with hlt | hge
    · exact .inl ⟨hv.1, hlt⟩
    · exact .inr ⟨hge, hv.2⟩
  -- numbers given out at different times are different
  have hmixed : ∀ u v, Block b.graph.size b'.graph.size u → Block b'.graph.size b''.graph.size v →
      b''.graph.id u ≠ b''.graph.id v := by
    intro u v hu hv
    have hu' := hfirst u hu
    have hv' := h'.fresh v hv
    omega
  refine ⟨h.size.trans h'.size, hnextId.trans hnextId', hsubsets.trans hsubsets', ?_, ?_, ?_⟩
  · intro v hv
    rw [h'.old v (hv.trans_le h.size), h.old v hv]
  · intro v hv
    rcases hcases v hv with hv | hv
    · have hv' := hfirst v hv
      omega
    · have hv' := h'.fresh v hv
      omega
  · intro u hu v hv heq
    rcases hcases u hu with hu | hu
    · rcases hcases v hv with hv | hv
      · refine h.distinct hu hv ?_
        rwa [h'.old u hu.2, h'.old v hv.2] at heq
      · exact absurd heq (hmixed u v hu hv)
    · rcases hcases v hv with hv | hv
      · exact absurd heq.symm (hmixed v u hv hu)
      · exact h'.distinct hu hv heq

/-- Only the numbers matter, not the edges. -/
theorem NumbersFreshly.relink (h : b.NumbersFreshly b') {g : Graph}
    (hsize : g.size = b'.graph.size) (hid : ∀ v, g.id v = b'.graph.id v) :
    b.NumbersFreshly { b' with graph := g } where
  size := hsize ▸ h.size
  nextId := h.nextId
  subsets := h.subsets
  old v hv := (hid v).trans (h.old v hv)
  fresh v hv := by
    rw [hid v]
    exact h.fresh v ⟨hv.1, hsize ▸ hv.2⟩
  distinct u hu v hv heq := by
    rw [hid u, hid v] at heq
    exact h.distinct ⟨hu.1, hsize ▸ hu.2⟩ ⟨hv.1, hsize ▸ hv.2⟩ heq

/-! ### Operators -/

section

variable (b : Builder)

theorem numbersFreshly_newVertex : b.NumbersFreshly b.newVertex.1 := by
  have hsize : b.newVertex.1.graph.size = b.graph.size + 1 := Graph.size_addVertex _
  have hid : ∀ v, b.newVertex.1.graph.id v = if v = b.graph.size then (b.nextId : Int)
      else b.graph.id v := Graph.id_addVertex _
  have honly : ∀ v, Block b.graph.size b.newVertex.1.graph.size v → v = b.graph.size := by
    rintro v ⟨hlow, hhigh⟩
    omega
  refine ⟨by omega, Nat.le_succ _, le_refl _, fun _ hv => ?_, fun v hv => .inl ?_, ?_⟩
  · rw [hid, if_neg hv.ne]
  · have hnext : b.newVertex.1.nextId = b.nextId + 1 := rfl
    rw [hid, if_pos (honly v hv), hnext]
    omega
  · intro u hu v hv _
    rw [honly u hu, honly v hv]

theorem numbersFreshly_atom (a : Atom) : b.NumbersFreshly (b.atom a).1 := by
  have htwo := b.numbersFreshly_newVertex.trans (numbersFreshly_newVertex _)
  exact htwo.relink (Graph.size_link ..) (Graph.id_link _ _ _)

theorem numbersFreshly_concatenate (f s : Automaton) :
    b.NumbersFreshly (b.concatenate? f s).1 := by
  unfold concatenate?
  split
  · exact (NumbersFreshly.refl b).relink (Graph.size_linkAll ..) (Graph.id_linkAll _ _)
  · exact .refl b

theorem numbersFreshly_union (f s : Automaton) : b.NumbersFreshly (b.union? f s).1 := by
  have htwo := b.numbersFreshly_newVertex.trans (numbersFreshly_newVertex _)
  unfold union?
  split
  · exact htwo.relink (by simp) (by simp)
  · exact .refl b

theorem numbersFreshly_star (f : Automaton) : b.NumbersFreshly (b.star? f).1 := by
  have htwo := b.numbersFreshly_newVertex.trans (numbersFreshly_newVertex _)
  unfold star?
  split
  · exact htwo.relink (by simp) (by simp)
  · exact .refl b

/-- The vertices for sets are numbered one after the other. -/
theorem numbersFreshly_subsetComplement (symbols : List Symbol) (a : Automaton) :
    b.NumbersFreshly (b.subsetComplement symbols a).1 := by
  obtain ⟨_, hsize, hnode⟩ := b.follows_subsetComplement symbols a
  set b' := (b.subsetComplement symbols a).1 with hb'
  set count := (b.setsOf symbols a).length with hcount
  have hsize : b'.graph.size = b.graph.size + count := hsize
  have hsubsets : b'.subsets = b.subsets + count := rfl
  have hid : ∀ i < count, b'.graph.id (b.graph.size + i) = -(b.subsets + 1 + i : Nat) := by
    intro i hi
    have hlt : b.graph.size + i < b'.graph.size := by omega
    exact (b.node_subsetComplement symbols a hlt).1
  have hnew : ∀ v, Block b.graph.size b'.graph.size v → ∃ i < count, b.graph.size + i = v := by
    rintro v ⟨hlow, hhigh⟩
    exact ⟨v - b.graph.size, by omega, by omega⟩
  refine ⟨by omega, le_refl _, by omega, fun v hv => ?_, fun v hv => .inr ?_, ?_⟩
  · exact congrArg Node.id (hnode v hv)
  · obtain ⟨i, hi, rfl⟩ := hnew v hv
    rw [hid i hi]
    omega
  · intro u hu v hv heq
    obtain ⟨i, hi, rfl⟩ := hnew u hu
    obtain ⟨j, hj, rfl⟩ := hnew v hv
    rw [hid i hi, hid j hj] at heq
    omega

theorem numbersFreshly_complement (symbols : List Symbol) (a : Automaton) :
    b.NumbersFreshly (b.complement symbols a).1 := by
  unfold complement
  split
  · exact .refl b
  · exact b.numbersFreshly_subsetComplement symbols a

end

/-- Whatever an operator does, the new vertices are numbered freshly. -/
theorem stepRelation_numbersFreshly (symbols : List Symbol) :
    StepRelation symbols NumbersFreshly where
  refl := .refl
  trans := .trans
  atom := numbersFreshly_atom
  concatenate := numbersFreshly_concatenate
  union := numbersFreshly_union
  star := numbersFreshly_star
  complement b := b.numbersFreshly_complement symbols

end Builder

/-! ### The stack -/

section

variable {symbols : List Symbol} {g : Graph} {base lo hi : Nat} {stack : List Automaton}
  {Ls : List (Language Symbol)}

/-- An operand has no vertices outside its block. -/
theorem Operand.block_of_owns {a : Automaton} {L : Language Symbol} (h : Operand symbols g lo hi a L)
    {v : Nat} (hv : a.Owns g v) : Block lo hi v := by
  rcases hv with hv | hv
  · exact h.region.of_reaches h.start hv
  · exact h.accepting v hv

theorem Stacked.block_of_owns (h : Stacked symbols g base hi stack Ls) :
    ∀ x ∈ stack, ∀ v, x.Owns g v → Block base hi v := by
  induction h with
  | nil => exact fun x hx => absurd hx List.not_mem_nil
  | cons below top ih =>
    intro x hx v hv
    rcases List.mem_cons.1 hx with rfl | hx
    · obtain ⟨hlow, hhigh⟩ := top.block_of_owns hv
      exact ⟨below.base_le.trans hlow, hhigh⟩
    · obtain ⟨hlow, hhigh⟩ := ih x hx v hv
      exact ⟨hlow, hhigh.trans_le top.lo_le⟩

/-- No two automata on the stack have a vertex in common. -/
theorem Stacked.apart (h : Stacked symbols g base hi stack Ls) :
    stack.Pairwise fun x y => ∀ v, x.Owns g v → ¬ y.Owns g v := by
  induction h with
  | nil => exact .nil
  | cons below top ih =>
    refine .cons (fun y hy v hx hv => ?_) ih
    have hlow := (top.block_of_owns hx).1
    have hhigh := (below.block_of_owns y hy v hv).2
    omega

end

namespace Builder

/-- The automata on a stack can be told apart by the numbers of their vertices, and so can the
vertices of each of them.  Numbers from zero on are below the counter for fragments, and negative ones
above the next number for a set. -/
structure Distinguishes (b : Builder) (stack : List Automaton) : Prop where
  apart : stack.Pairwise fun x y =>
    ∀ u v, x.Owns b.graph u → y.Owns b.graph v → b.graph.id u ≠ b.graph.id v
  distinct : ∀ x ∈ stack, Set.InjOn b.graph.id {v | x.Owns b.graph v}
  counted : ∀ x ∈ stack, ∀ v, x.Owns b.graph v →
    (0 ≤ b.graph.id v → b.graph.id v < b.nextId) ∧
      (b.graph.id v < 0 → -(b.subsets + 1 : Nat) < b.graph.id v)

/-- The builder and the stack of automata after the first instructions of a canonical pattern. -/
def moment (b : Builder) (alphabet : Alphabet) (t : Text) (k : Nat) :
    Builder × Except Halt (List Automaton) :=
  runInstrs alphabet.operating { b with nextId := 0 } []
    ((Program.ofText alphabet t).instrs.take k)

section

variable {b b' : Builder} {alphabet : Alphabet} {t : Text} {k : Nat} {stack : List Automaton}

/-- All vertices that have been made until then have different numbers. -/
theorem numbersFreshly_moment (h : b.moment alphabet t k = (b', .ok stack)) :
    ({ b with nextId := 0 } : Builder).NumbersFreshly b' := by
  have hrun := (stepRelation_numbersFreshly alphabet.operating).runInstrs { b with nextId := 0 } []
    ((Program.ofText alphabet t).instrs.take k)
  rw [moment] at h
  rwa [h] at hrun

/-- The automata on the stack are for the languages that the instructions leave. -/
theorem stacked_moment (h : b.moment alphabet t k = (b', .ok stack)) :
    ∃ Ls, valueOf alphabet.operating ((Program.ofText alphabet t).instrs.take k) [] = some Ls ∧
      Stacked alphabet.operating b'.graph b.graph.size b'.graph.size stack Ls := by
  have hbase : Stacked alphabet.operating b.graph b.graph.size b.graph.size [] [] := .nil
  obtain ⟨Ls, hvalue, hextends⟩ :=
    exists_extends_of_runInstrs (b := { b with nextId := 0 }) hbase h
  exact ⟨Ls, hvalue, hextends.stacked⟩

/-- A spelling of a syntax tree never brings the machine to a halt. -/
theorem exists_moment_of_spells (b : Builder) (ha : alphabet.Lacks (operatorChars ++ specialChars))
    {e : Canon .expr} (ht : Spells alphabet t e.tokens) (k : Nat) :
    ∃ b' stack, b.moment alphabet t k = (b', .ok stack) := by
  obtain ⟨_, hvalue⟩ :=
    Program.value_eq_some.1 (Generator.value_of_spells ha ht alphabet.operating)
  -- the first instructions can be carried out because all of them can
  rw [← List.take_append_drop k (Program.ofText alphabet t).instrs, valueOf_append] at hvalue
  obtain ⟨Ls, hLs, _⟩ := Option.bind_eq_some_iff.1 hvalue
  have hbase : Stacked alphabet.operating b.graph b.graph.size b.graph.size [] [] := .nil
  obtain ⟨b', stack, hrun, _⟩ := runInstrs_of_value (b := { b with nextId := 0 }) hbase hLs
  exact ⟨b', stack, hrun⟩

/-- The automaton of a pattern is what its last moment leaves on the stack. -/
theorem moment_of_compile {a : Automaton} (h : b.compile alphabet t = (b', .ok a)) :
    b.moment alphabet t (Program.ofText alphabet t).instrs.length = (b', .ok [a]) := by
  rw [moment, List.take_length]
  unfold compile at h
  dsimp only at h
  split at h
  · cases h
  · rename_i b₁ stack hrun
    rw [hrun]
    split at h
    · cases h
    · obtain ⟨rfl, hone⟩ := Prod.mk.inj h
      rcases stack with _ | ⟨x, _ | ⟨y, stack⟩⟩
      · cases hone
      · cases hone
        rfl
      · cases hone

end

/-- At every moment of the compilation of any text, numbers tell the automata on the stack apart, and
in the whole compilation no two vertices get the same number.  The machine gets through all moments of
a canonical pattern, and the last one leaves the automaton of the pattern. -/
theorem distinguishes_moment (b : Builder) (alphabet : Alphabet) (t : Text) :
    (∀ k b' stack, b.moment alphabet t k = (b', .ok stack) →
        b'.Distinguishes stack ∧
          (∀ x ∈ stack, ∀ v, x.Owns b'.graph v → Block b.graph.size b'.graph.size v) ∧
          Set.InjOn b'.graph.id {v | Block b.graph.size b'.graph.size v}) ∧
      (alphabet.Lacks (operatorChars ++ specialChars) →
        ∀ e : Canon .expr, Spells alphabet t e.tokens →
          ∀ k, ∃ b' stack, b.moment alphabet t k = (b', .ok stack)) ∧
      ∀ b' a, b.compile alphabet t = (b', .ok a) →
        b.moment alphabet t (Program.ofText alphabet t).instrs.length = (b', .ok [a]) := by
  refine ⟨fun k b' stack h => ?_, fun ha e ht k => exists_moment_of_spells b ha ht k,
    fun b' a h => moment_of_compile h⟩
  obtain ⟨Ls, _, hstacked⟩ := stacked_moment h
  have hfresh := numbersFreshly_moment h
  have hblock := hstacked.block_of_owns
  have hdistinct : Set.InjOn b'.graph.id {v | Block b.graph.size b'.graph.size v} := hfresh.distinct
  refine ⟨⟨?_, fun x hx u hu v hv heq => ?_, fun x hx v hv => ?_⟩, hblock, hdistinct⟩
  · refine hstacked.apart.imp_of_mem fun {x y} hx hy hxy u v hu hv heq => ?_
    -- the same number would be the same vertex
    obtain rfl := hdistinct (hblock x hx u hu) (hblock y hy v hv) heq
    exact hxy u hu hv
  · exact hdistinct (hblock x hx u hu) (hblock x hx v hv) heq
  · have hnumber := hfresh.fresh v (hblock x hx v hv)
    have hzero : (({ b with nextId := 0 } : Builder).nextId : Int) = 0 := rfl
    rw [hzero] at hnumber
    omega

/-- The symbol `a`, or anything that is not anything but `a` and one more symbol. -/
def nestedComplements : Canon .expr :=
  .union (.ofFactor (.complement (.group Generator.negationThenAny)))
    (.ofTerm (.ofFactor (.ofBase (.atom (.one (Symbol.ofChar 'a'))))))

/-- Behind the second `a` there are two automata on the stack: one for this symbol, and one for the
complement, which has a complement inside. -/
theorem distinguishes_moment_nestedComplements :
    (Alphabet.ofText ['a']).Lacks (operatorChars ++ specialChars) ∧
      Spells (.ofText ['a']) ['!', '(', '!', '/', 'a', '&', '.', ')', '|', 'a']
        nestedComplements.tokens ∧
      ∃ b x y, Builder.new.moment (.ofText ['a'])
          ['!', '(', '!', '/', 'a', '&', '.', ')', '|', 'a'] 6 = (b, .ok [x, y]) ∧
        b.Distinguishes [x, y] := by
  have hlacks : (Alphabet.ofText ['a']).Lacks (operatorChars ++ specialChars) := by decide
  have hspells : Spells (.ofText ['a']) ['!', '(', '!', '/', 'a', '&', '.', ')', '|', 'a']
      nestedComplements.tokens :=
    ⟨[.bare '!', .bare '(', .bare '!', .escaped 'a', .bare '&', .bare '.', .bare ')', .bare '|',
        .bare 'a'], rfl,
      .cons (.op .complement) (.cons (.op .opening) (.cons (.op .complement) (.cons (.escaped 'a')
        (.cons (.op .concat) (.cons .any (.cons (.op .closing) (.cons (.op .union)
          (.cons (.literal 'a' (by decide)) .nil))))))))⟩
  refine ⟨hlacks, hspells, ?_⟩
  obtain ⟨hdistinguishes, hmoments, _⟩ := distinguishes_moment .new (.ofText ['a'])
    ['!', '(', '!', '/', 'a', '&', '.', ')', '|', 'a']
  obtain ⟨b, stack, hmoment⟩ := hmoments hlacks nestedComplements hspells 6
  obtain ⟨hb, _⟩ := hdistinguishes 6 b stack hmoment
  -- two languages are left, so there are two automata
  obtain ⟨Ls, hvalue, hstacked⟩ := stacked_moment hmoment
  cases hvalue
  obtain ⟨x, y, rfl⟩ := List.length_eq_two.1 hstacked.length_eq
  exact ⟨b, x, y, hmoment, hb⟩

end Builder

end RegexAutomata
