/-
The machine and the languages on its stack.

An instruction can be carried out on a stack of languages instead of automata (`Instr.value`).
The machine does the same with automata (`Stacked`): each automaton on its stack owns a block of
the graph, the blocks lie in the order of the stack, and its language is the one in the same place.

* `exec_of_value`, `exec_of_no_value` — one instruction;
* `runInstrs_of_value`, `runInstrs_of_no_value`, `exists_extends_of_runInstrs` — a list of
  instructions;
* `Builder.StepRelation.runInstrs` — what all operators do to a builder, instructions do to it;
* `Builder.compile_of_value`, `Builder.compile_of_no_value` — a whole pattern.  If no automaton
  can be made, the pattern is to blame.
-/
import RegexAutomata.Compile
import RegexAutomata.Proofs.Automaton.Fragment

open scoped Computability

namespace RegexAutomata

/-! ### Instructions on languages -/

/-- What an operator makes of the topmost languages of a stack, if there are enough of them. -/
def Operator.value (symbols : List Symbol) :
    Operator → List (Language Symbol) → Option (List (Language Symbol))
  | concat, M :: L :: Ls => some (L * M :: Ls)
  | union, M :: L :: Ls => some ((L + M) :: Ls)
  | star, L :: Ls => some (L∗ :: Ls)
  | complement, L :: Ls => some (complementIn symbols L :: Ls)
  | _, _ => none

/-- What an instruction makes of a stack of languages. -/
def Instr.value (symbols : List Symbol) :
    Instr → List (Language Symbol) → Option (List (Language Symbol))
  | push a, Ls => some (a.language :: Ls)
  | apply _ o, Ls => o.value symbols Ls

/-- What instructions make of a stack of languages, one after the other. -/
def valueOf (symbols : List Symbol) :
    List Instr → List (Language Symbol) → Option (List (Language Symbol))
  | [], Ls => some Ls
  | i :: is, Ls => (i.value symbols Ls).bind (valueOf symbols is)

/-- What a program makes of a stack of languages, if it does not end in a fault. -/
def Program.value (symbols : List Symbol) (p : Program) (Ls : List (Language Symbol)) :
    Option (List (Language Symbol)) :=
  if p.stop = none then valueOf symbols p.instrs Ls else none

variable {symbols : List Symbol} {Ls Ms : List (Language Symbol)}

theorem valueOf_append (is js : List Instr) (Ls : List (Language Symbol)) :
    valueOf symbols (is ++ js) Ls = (valueOf symbols is Ls).bind (valueOf symbols js) := by
  induction is generalizing Ls with
  | nil => rfl
  | cons i is ih =>
    simp only [List.cons_append, valueOf, Option.bind_assoc]
    exact congrArg _ (funext ih)

theorem Program.value_prepend (is : List Instr) (p : Program) (Ls : List (Language Symbol)) :
    (p.prepend is).value symbols Ls = (valueOf symbols is Ls).bind (p.value symbols) := by
  unfold value
  show (if p.stop = none then valueOf symbols (is ++ p.instrs) Ls else none) = _
  by_cases h : p.stop = none
  · simp only [if_pos h, valueOf_append]
  · simp only [if_neg h, Option.bind_fun_none]

theorem Program.value_eq_some {p : Program} :
    p.value symbols Ls = some Ms ↔ p.stop = none ∧ valueOf symbols p.instrs Ls = some Ms := by
  unfold value
  by_cases h : p.stop = none
  · rw [if_pos h, and_iff_right h]
  · rw [if_neg h]
    exact iff_of_false nofun fun hp => h hp.1

/-! ### The stack of automata -/

/-- Automata for languages, each of which owns a block of the graph; the blocks follow each other
from `base` to `hi`, and the last one belongs to the top of the stack. -/
inductive Stacked (symbols : List Symbol) (g : Graph) (base : Nat) :
    Nat → List Automaton → List (Language Symbol) → Prop
  | nil : Stacked symbols g base base [] []
  | cons {lo hi : Nat} {a : Automaton} {L : Language Symbol} {stack : List Automaton}
    {Ls : List (Language Symbol)} (below : Stacked symbols g base lo stack Ls)
    (top : Operand symbols g lo hi a L) : Stacked symbols g base hi (a :: stack) (L :: Ls)

namespace Stacked

variable {g g' : Graph} {base hi : Nat} {stack : List Automaton}

theorem base_le (h : Stacked symbols g base hi stack Ls) : base ≤ hi := by
  induction h with
  | nil => exact le_refl _
  | cons _ top ih => exact ih.trans top.lo_le

theorem congr (h : Stacked symbols g base hi stack Ls) (hagree : ∀ v < hi, g'.node v = g.node v) :
    Stacked symbols g' base hi stack Ls := by
  induction h with
  | nil => exact .nil
  | cons below top ih =>
    have hbelow := ih fun v hv => hagree v (hv.trans_le top.lo_le)
    exact .cons hbelow (top.congr fun v hv => hagree v hv.2)

theorem length_eq (h : Stacked symbols g base hi stack Ls) : stack.length = Ls.length := by
  induction h with
  | nil => rfl
  | cons _ _ ih => exact congrArg Nat.succ ih

theorem exists_only {L : Language Symbol} (h : Stacked symbols g base hi stack [L]) :
    ∃ a, stack = [a] ∧ a.start < hi ∧ a.language g = L := by
  obtain _ | ⟨below, top⟩ := h
  cases below
  exact ⟨_, rfl, top.start.2, top.language⟩

end Stacked

/-- The second builder has gone on from the first one without touching the vertices before `base`,
and its graph ends with the topmost automaton of a stack for the languages. -/
structure Extends (symbols : List Symbol) (base : Nat) (b b' : Builder) (stack : List Automaton)
    (Ls : List (Language Symbol)) : Prop where
  size : b.graph.size ≤ b'.graph.size
  node : ∀ v < base, b'.graph.node v = b.graph.node v
  stacked : Stacked symbols b'.graph base b'.graph.size stack Ls

section Machine

variable {b : Builder} {base : Nat} {stack : List Automaton}

/-- Puts on the stack what an operator has made. -/
theorem Makes.extends {b' : Builder} {lo : Nat} {a : Automaton} {L : Language Symbol}
    (h : Makes symbols b lo b' a L) (below : Stacked symbols b.graph base lo stack Ls) :
    Extends symbols base b b' (a :: stack) (L :: Ls) where
  size := h.size
  node v hv := h.node v (hv.trans_le below.base_le)
  stacked := .cons (below.congr h.node) h.operand

theorem exec_of_value (h : Stacked symbols b.graph base b.graph.size stack Ls) {i : Instr}
    (hi : i.value symbols Ls = some Ms) :
    ∃ b' stack', i.exec symbols b stack = (b', .ok stack') ∧
      Extends symbols base b b' stack' Ms := by
  cases i with
  | push a =>
    cases hi
    exact ⟨_, _, rfl, (Builder.makes_atom symbols b a).extends h⟩
  | apply k o =>
    cases o with
    | concat =>
      obtain _ | ⟨_ | ⟨below, first⟩, second⟩ := h
      · cases hi
      · cases hi
      · cases hi
        obtain ⟨b', a, heq, hmakes⟩ := Builder.makes_concatenate first second
        exact ⟨b', _, by simp only [Instr.exec, heq, pushResult], hmakes.extends below⟩
    | union =>
      obtain _ | ⟨_ | ⟨below, first⟩, second⟩ := h
      · cases hi
      · cases hi
      · cases hi
        obtain ⟨b', a, heq, hmakes⟩ := Builder.makes_union first second
        exact ⟨b', _, by simp only [Instr.exec, heq, pushResult], hmakes.extends below⟩
    | star =>
      obtain _ | ⟨below, top⟩ := h
      · cases hi
      · cases hi
        obtain ⟨b', a, heq, hmakes⟩ := Builder.makes_star top
        exact ⟨b', _, by simp only [Instr.exec, heq, pushResult], hmakes.extends below⟩
    | complement =>
      obtain _ | ⟨below, top⟩ := h
      · cases hi
      · cases hi
        exact ⟨_, _, rfl, (Builder.makes_complement top).extends below⟩
    | opening => cases hi
    | closing => cases hi

/-- What is wrong with an instruction depends on how many operands there are, and on nothing else
that the machine has. -/
theorem exec_of_no_value {i : Instr} (hi : i.value symbols Ls = none) :
    ∃ s, ∀ {b : Builder} {base hi : Nat} {stack : List Automaton},
      Stacked symbols b.graph base hi stack Ls → i.exec symbols b stack = (b, .error (.stop s)) := by
  cases i with
  | push a => cases hi
  | apply k o =>
    have hopen : ∀ o : Operator, o = .opening ∨ o = .closing →
        ∃ s, ∀ {b : Builder} {base hi : Nat} {stack : List Automaton},
          Stacked symbols b.graph base hi stack Ls →
            (Instr.apply k o).exec symbols b stack = (b, .error (.stop s)) := by
      rintro o ho
      cases Ls with
      | nil =>
        refine ⟨⟨k, .missingOperand o.char⟩, fun h => ?_⟩
        cases h
        rcases ho with rfl | rfl <;> rfl
      | cons L Ls =>
        refine ⟨⟨k, .unmatched⟩, fun h => ?_⟩
        cases h
        rcases ho with rfl | rfl <;> rfl
    cases o with
    | opening => exact hopen .opening (.inl rfl)
    | closing => exact hopen .closing (.inr rfl)
    | concat =>
      refine ⟨⟨k, .missingOperand '&'⟩, fun h => ?_⟩
      obtain _ | ⟨_ | ⟨_, _⟩, _⟩ := h
      · rfl
      · rfl
      · cases hi
    | union =>
      refine ⟨⟨k, .missingOperand '|'⟩, fun h => ?_⟩
      obtain _ | ⟨_ | ⟨_, _⟩, _⟩ := h
      · rfl
      · rfl
      · cases hi
    | star =>
      refine ⟨⟨k, .missingOperand '*'⟩, fun h => ?_⟩
      obtain _ | ⟨_, _⟩ := h
      · rfl
      · cases hi
    | complement =>
      refine ⟨⟨k, .missingOperand '!'⟩, fun h => ?_⟩
      obtain _ | ⟨_, _⟩ := h
      · rfl
      · cases hi

/-! ### Runs -/

theorem runInstrs_of_value {is : List Instr}
    (h : Stacked symbols b.graph base b.graph.size stack Ls)
    (his : valueOf symbols is Ls = some Ms) :
    ∃ b' stack', runInstrs symbols b stack is = (b', .ok stack') ∧
      Extends symbols base b b' stack' Ms := by
  induction is generalizing b stack Ls with
  | nil =>
    cases his
    exact ⟨b, stack, rfl, le_refl _, fun _ _ => rfl, h⟩
  | cons i is ih =>
    obtain ⟨Ns, hi, his⟩ := Option.bind_eq_some_iff.1 his
    obtain ⟨b₁, stack₁, heq₁, h₁⟩ := exec_of_value h hi
    obtain ⟨b₂, stack₂, heq₂, h₂⟩ := ih h₁.stacked his
    refine ⟨b₂, stack₂, ?_, h₁.size.trans h₂.size, fun v hv => ?_, h₂.stacked⟩
    · rw [runInstrs, heq₁]
      exact heq₂
    · rw [h₂.node v hv, h₁.node v hv]

theorem runInstrs_of_no_value {is : List Instr} (his : valueOf symbols is Ls = none) :
    ∃ s, ∀ {b : Builder} {base : Nat} {stack : List Automaton},
      Stacked symbols b.graph base b.graph.size stack Ls →
        ∃ b', runInstrs symbols b stack is = (b', .error (.stop s)) ∧
          b.graph.size ≤ b'.graph.size ∧ ∀ v < base, b'.graph.node v = b.graph.node v := by
  induction is generalizing Ls with
  | nil => cases his
  | cons i is ih =>
    cases hi : i.value symbols Ls with
    | none =>
      obtain ⟨s, heq⟩ := exec_of_no_value hi
      exact ⟨s, fun h => ⟨_, by rw [runInstrs, heq h], le_refl _, fun _ _ => rfl⟩⟩
    | some Ns =>
      rw [valueOf, hi] at his
      obtain ⟨s, hrest⟩ := ih his
      refine ⟨s, fun h => ?_⟩
      obtain ⟨b₁, stack₁, heq₁, h₁⟩ := exec_of_value h hi
      obtain ⟨b₂, heq₂, hsize, hnode⟩ := hrest h₁.stacked
      refine ⟨b₂, by rw [runInstrs, heq₁]; exact heq₂, h₁.size.trans hsize, fun v hv => ?_⟩
      rw [hnode v hv, h₁.node v hv]

/-- Instructions that can all be carried out leave automata for the languages that they leave. -/
theorem exists_extends_of_runInstrs {is : List Instr} {b' : Builder} {stack' : List Automaton}
    (h : Stacked symbols b.graph base b.graph.size stack Ls)
    (hrun : runInstrs symbols b stack is = (b', .ok stack')) :
    ∃ Ms, valueOf symbols is Ls = some Ms ∧ Extends symbols base b b' stack' Ms := by
  cases hvalue : valueOf symbols is Ls with
  | none =>
    obtain ⟨_, hstop⟩ := runInstrs_of_no_value hvalue
    obtain ⟨_, herror, _⟩ := hstop h
    cases hrun.symm.trans herror
  | some Ms =>
    obtain ⟨_, _, hok, hextends⟩ := runInstrs_of_value h hvalue
    cases hrun.symm.trans hok
    exact ⟨Ms, rfl, hextends⟩

end Machine

/-! ### The builder -/

/-- A relation that holds between a builder and what an operator makes of it, and that adds up. -/
structure Builder.StepRelation (symbols : List Symbol) (R : Builder → Builder → Prop) : Prop where
  refl : ∀ b, R b b
  trans : ∀ {b b' b''}, R b b' → R b' b'' → R b b''
  atom : ∀ b x, R b (b.atom x).1
  concatenate : ∀ b f s, R b (b.concatenate? f s).1
  union : ∀ b f s, R b (b.union? f s).1
  star : ∀ b f, R b (b.star? f).1
  complement : ∀ b f, R b (b.complement symbols f).1

theorem fst_pushResult (stack : List Automaton) (made : Builder × Option Automaton) :
    (pushResult stack made).1 = made.1 := by
  obtain ⟨b, _ | a⟩ := made <;> rfl

namespace Builder.StepRelation

variable {R : Builder → Builder → Prop}

theorem exec (h : StepRelation symbols R) (b : Builder) (stack : List Automaton) (i : Instr) :
    R b (i.exec symbols b stack).1 := by
  unfold Instr.exec
  split
  · exact h.atom b _
  · split
    · rw [fst_pushResult]
      exact h.concatenate b _ _
    · rw [fst_pushResult]
      exact h.union b _ _
    · rw [fst_pushResult]
      exact h.star b _
    · exact h.complement b _
    · exact h.refl b
    · exact h.refl b
    · exact h.refl b

/-- The relation holds between the builders before and after instructions, also if they stop. -/
theorem runInstrs (h : StepRelation symbols R) (b : Builder) (stack : List Automaton)
    (is : List Instr) : R b (runInstrs symbols b stack is).1 := by
  induction is generalizing b stack with
  | nil => exact h.refl b
  | cons i is ih =>
    have hfirst := h.exec b stack i
    rw [RegexAutomata.runInstrs]
    split
    · rename_i hexec
      rw [hexec] at hfirst
      exact h.trans hfirst (ih _ _)
    · rename_i hexec
      rw [hexec] at hfirst
      exact hfirst

end Builder.StepRelation

/-! ### Whole patterns -/

namespace Builder

variable {alphabet : Alphabet} {t : Text}

/-- A pattern whose program leaves one language has an automaton for this language. -/
theorem compile_of_value (b : Builder) {L : Language Symbol}
    (h : (Program.ofText alphabet t).value alphabet.operating [] = some [L]) :
    ∃ b' a, b.compile alphabet t = (b', .ok a) ∧ b.graph.Grows b'.graph ∧
      a.start < b'.graph.size ∧ a.language b'.graph = L := by
  obtain ⟨hstop, hvalue⟩ := Program.value_eq_some.1 h
  have hbase : Stacked alphabet.operating b.graph b.graph.size b.graph.size [] [] := .nil
  obtain ⟨b', stack, hrun, hext⟩ :=
    runInstrs_of_value (b := { b with nextId := 0 }) hbase hvalue
  obtain ⟨a, rfl, hstart, ha⟩ := hext.stacked.exists_only
  exact ⟨b', a, by simp only [compile, hrun, hstop, onlyOperand], ⟨hext.size, hext.node⟩, hstart,
    ha⟩

/-- A pattern whose program does not leave one language is wrong, in the same way whatever has
been built before. -/
theorem compile_of_no_value
    (h : ∀ L, (Program.ofText alphabet t).value alphabet.operating [] ≠ some [L]) :
    ∃ e, ∀ b : Builder, ∃ b', b.compile alphabet t = (b', .error (.pattern e)) ∧
      b.graph.Grows b'.graph := by
  have hbase : ∀ b : Builder,
      Stacked alphabet.operating b.graph b.graph.size b.graph.size [] [] := fun _ => .nil
  cases hvalue : valueOf alphabet.operating (Program.ofText alphabet t).instrs [] with
  | none =>
    obtain ⟨s, hrun⟩ := runInstrs_of_no_value hvalue
    refine ⟨s.toError t, fun b => ?_⟩
    obtain ⟨b', heq, hsize, hnode⟩ := hrun (b := { b with nextId := 0 }) (hbase b)
    exact ⟨b', by simp only [compile, heq, Halt.toError], hsize, hnode⟩
  | some Ls =>
    have hrun : ∀ b : Builder, ∃ b' stack,
        runInstrs alphabet.operating { b with nextId := 0 } [] (Program.ofText alphabet t).instrs =
          (b', .ok stack) ∧ Extends alphabet.operating b.graph.size { b with nextId := 0 } b' stack
          Ls := fun b => runInstrs_of_value (b := { b with nextId := 0 }) (hbase b) hvalue
    cases hstop : (Program.ofText alphabet t).stop with
    | some s =>
      refine ⟨s.toError t, fun b => ?_⟩
      obtain ⟨b', stack, heq, hext⟩ := hrun b
      exact ⟨b', by simp only [compile, heq, hstop], hext.size, hext.node⟩
    | none =>
      -- all has been carried out, but there is not just one automaton
      match Ls, hvalue, hrun with
      | [], _, hrun =>
        refine ⟨.ofWhole .emptyExpression t, fun b => ?_⟩
        obtain ⟨b', stack, heq, hext⟩ := hrun b
        obtain rfl : stack = [] := List.length_eq_zero_iff.1 hext.stacked.length_eq
        exact ⟨b', by simp only [compile, heq, hstop, onlyOperand], hext.size, hext.node⟩
      | [L], hvalue, _ => exact absurd (by rw [Program.value, if_pos hstop, hvalue]) (h L)
      | _ :: _ :: _, _, hrun =>
        refine ⟨.ofWhole .missingOperator t, fun b => ?_⟩
        obtain ⟨b', stack, heq, hext⟩ := hrun b
        have hlength := hext.stacked.length_eq
        rcases stack with _ | ⟨x, _ | ⟨y, stack⟩⟩
        · cases hlength
        · cases hlength
        · exact ⟨b', by simp only [compile, heq, hstop, onlyOperand], hext.size, hext.node⟩

end Builder

end RegexAutomata
