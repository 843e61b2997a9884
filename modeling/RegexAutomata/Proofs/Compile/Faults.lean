/-
Where a canonical pattern is wrong.

The indices that a program has are those of tokens, and a token is a piece of the text.  They are
kept in the operators that wait, so they are also those of the instructions and of the fault in
which the program ends, and the machine reports no other ones (`Program.Within`, `runInstrs_within`).
Parentheses are never applied, and no operands are left over, since the last pass puts an operator
between them.  So there is no way to fail but those that are reported.

* `scan_within` — tokens;
* `ofTokens_within` — programs, whatever operators wait;
* `Builder.compile_error` — a canonical pattern without an automaton.
-/
import RegexAutomata.Proofs.Compile.Acceptance
import RegexAutomata.Proofs.Compile.Memories
import RegexAutomata.Proofs.Pattern.Faults

namespace RegexAutomata

open Piece

variable {P : Nat → Prop} {a : Alphabet} {t c p : Text}

/-- The fault is one that is reported, at an index that has this property. -/
structure Stop.Within (P : Nat → Prop) (s : Stop) : Prop where
  position : P s.position
  fault : s.fault.reported = true

theorem Stop.Within.located {s : Stop} (h : s.Within (StartsAt t)) : (s.toError t).Located :=
  PatternError.located_atIndex h.fault h.position

/-! ### Tokens -/

/-- All indices have this property. -/
structure Scanned.Within (P : Nat → Prop) (s : Scanned) : Prop where
  tokens : ∀ x ∈ s.tokens, P x.1
  stop : ∀ f ∈ s.stop, f.Within P

/-- Each token is a piece, and so is what cannot be read. -/
theorem scan_within (a : Alphabet) (t : Text) : (scan a t).Within (StartsAt t) := by
  obtain ⟨ps, rest, ts, hsplit, -, htokens, -, hstop⟩ := scanFrom_pieces a 0 t
  refine ⟨fun x hx => ?_, fun f hf => ?_⟩
  · have hindex : x.1 ∈ offsets 0 ps := by
      rw [scan, htokens] at hx
      exact (List.of_mem_zip hx).1
    obtain ⟨qs, rs, rfl, hne, hk⟩ := exists_of_mem_offsets hindex
    refine ⟨qs, rs ++ rest, ?_, List.append_ne_nil_of_left_ne_nil hne rest, ?_⟩
    · rw [hsplit, List.append_assoc]
    · rw [hk, Nat.zero_add]
  · obtain ⟨hne, hposition, hkind⟩ := hstop f hf
    refine ⟨⟨ps, rest, hsplit, hne, ?_⟩, Fault.reported_of_kind hkind⟩
    rw [hposition, Nat.zero_add]

/-! ### Programs -/

/-- The operator that is applied is no parenthesis, and its index has this property. -/
def Instr.Within (P : Nat → Prop) : Instr → Prop
  | push _ => True
  | apply k o => P k ∧ o ≠ .opening ∧ o ≠ .closing

/-- All indices have this property, and no parenthesis is applied. -/
structure Program.Within (P : Nat → Prop) (p : Program) : Prop where
  instrs : ∀ i ∈ p.instrs, i.Within P
  stop : ∀ s ∈ p.stop, s.Within P

namespace Program

theorem Within.prepend {p : Program} (h : p.Within P) {is : List Instr}
    (his : ∀ i ∈ is, i.Within P) : (p.prepend is).Within P where
  instrs := List.forall_mem_append.2 ⟨his, h.instrs⟩
  stop := h.stop

theorem applyAll_within {ws : List Waiting}
    (h : ∀ w ∈ ws, P w.1 ∧ w.2 ≠ .opening ∧ w.2 ≠ .closing) :
    ∀ i ∈ applyAll ws, i.Within P := by
  intro i hi
  obtain ⟨w, hw, rfl⟩ := List.mem_map.1 hi
  exact h w hw

/-- A waiting operator is let go only if it is no opening parenthesis. -/
theorem takeWhile_within {ws : List Waiting} (hws : ∀ w ∈ ws, P w.1 ∧ w.2 ≠ .closing)
    {q : Waiting → Bool} (hq : ∀ w, q w = true → w.2 ≠ .opening) :
    ∀ i ∈ applyAll (ws.takeWhile q), i.Within P := by
  refine applyAll_within fun w hw => ?_
  obtain ⟨hposition, hclosing⟩ := hws w ((List.takeWhile_sublist _).subset hw)
  exact ⟨hposition, hq w (List.mem_takeWhile_imp hw), hclosing⟩

/-- What is true of the indices of the tokens and of the operators that wait is true of all indices
of the program. -/
theorem ofTokens_within {ws : List Waiting} (hws : ∀ w ∈ ws, P w.1 ∧ w.2 ≠ .closing)
    {stop : Option Stop} (hstop : ∀ s ∈ stop, s.Within P) {ts : List (Nat × Token)}
    (hts : ∀ x ∈ ts, P x.1) : (ofTokens ws stop ts).Within P := by
  have hgroup : ∀ w, inGroup w = true → w.2 ≠ .opening := by
    intro w hw
    simpa [inGroup] using hw
  induction ts generalizing ws with
  | nil =>
    cases stop with
    | some s =>
      refine ⟨nofun, ?_⟩
      rintro _ ⟨⟩
      exact hstop s rfl
    | none =>
      refine ⟨takeWhile_within hws hgroup, fun s hs => ?_⟩
      -- the innermost group that is open
      obtain ⟨w, hw, rfl⟩ := Option.map_eq_some_iff.1 hs
      have hmem : w ∈ ws := (List.dropWhile_sublist _).subset (List.mem_of_mem_head? hw)
      exact ⟨(hws w hmem).1, rfl⟩
  | cons x ts ih =>
    obtain ⟨hx, hrest⟩ := List.forall_mem_cons.1 hts
    obtain ⟨k, y | o⟩ := x
    · exact (ih hws hrest).prepend (by simp [Instr.Within])
    by_cases ho : o = .closing
    · subst ho
      rw [ofTokens]
      have hdropped : ∀ w ∈ ws.dropWhile inGroup, P w.1 ∧ w.2 ≠ .closing :=
        fun w hw => hws w ((List.dropWhile_sublist _).subset hw)
      split
      · rename_i hdrop
        refine ⟨applyAll_within fun w hw => ?_, ?_⟩
        · exact ⟨(hws w hw).1, hgroup w (List.dropWhile_eq_nil_iff.1 hdrop w hw), (hws w hw).2⟩
        · rintro _ ⟨⟩
          exact ⟨hx, rfl⟩
      · rename_i outer hdrop
        rw [hdrop] at hdropped
        -- the first of those that are left is the opening parenthesis, which is dropped
        exact (ih (List.forall_mem_cons.1 hdropped).2 hrest).prepend (takeWhile_within hws hgroup)
    · rw [ofTokens_op ho]
      have hprecedes : ∀ w : Waiting, w.2.precedes o = true → w.2 ≠ .opening := by
        rintro w hw hopening
        rw [hopening] at hw
        cases o <;> cases hw
      refine (ih ?_ hrest).prepend (takeWhile_within hws hprecedes)
      refine List.forall_mem_cons.2 ⟨⟨hx, ho⟩, fun w hw => ?_⟩
      exact hws w ((List.dropWhile_sublist _).subset hw)

theorem ofText_within (a : Alphabet) (t : Text) : (ofText a t).Within (StartsAt t) := by
  have h := scan_within a t
  exact ofTokens_within (by simp) h.stop h.tokens

end Program

/-! ### The machine -/

section

variable {symbols : List Symbol} {b b' : Builder} {stack : List Automaton} {s : Stop}

theorem pushResult_ne_stop (rest : List Automaton) (r : Builder × Option Automaton) :
    pushResult rest r ≠ (b', .error (.stop s)) := by
  obtain ⟨b, _ | x⟩ := r <;> nofun

/-- An instruction fails because an operand is missing. -/
theorem exec_within {i : Instr} (hi : i.Within P)
    (h : i.exec symbols b stack = (b', .error (.stop s))) : s.Within P := by
  unfold Instr.exec at h
  split at h
  · cases h
  · obtain ⟨hk, hopening, hclosing⟩ := hi
    split at h
    · exact absurd h (pushResult_ne_stop _ _)
    · exact absurd h (pushResult_ne_stop _ _)
    · exact absurd h (pushResult_ne_stop _ _)
    · cases h
    · exact absurd rfl hopening
    · exact absurd rfl hclosing
    · -- there are fewer operands than the operator needs
      cases h
      exact ⟨hk, rfl⟩

theorem runInstrs_within {is : List Instr} (his : ∀ i ∈ is, i.Within P)
    (h : runInstrs symbols b stack is = (b', .error (.stop s))) : s.Within P := by
  induction is generalizing b stack with
  | nil => cases h
  | cons i is ih =>
    obtain ⟨hi, his⟩ := List.forall_mem_cons.1 his
    rw [runInstrs] at h
    split at h
    · exact ih his h
    · rename_i hexec
      cases h
      exact exec_within hi hexec

/-- Instructions that can all be carried out leave as many automata as they leave languages. -/
theorem exists_value_of_runInstrs {is : List Instr}
    (h : runInstrs symbols b [] is = (b', .ok stack)) :
    ∃ Ls, valueOf symbols is [] = some Ls ∧ stack.length = Ls.length := by
  have hbase : Stacked symbols b.graph b.graph.size b.graph.size [] [] := .nil
  obtain ⟨Ls, hvalue, hextends⟩ := exists_extends_of_runInstrs hbase h
  exact ⟨Ls, hvalue, hextends.stacked.length_eq⟩

end

/-! ### Whole patterns -/

/-- A canonical pattern without an automaton has a fault that is reported, at the start of a token. -/
theorem Builder.compile_error (ha : a.Lacks operatorChars) (hc : canonical a p = .ok c)
    {b b' : Builder} {e : BuildError} (h : b.compile a c = (b', .error e)) :
    ∃ e', e = .pattern e' ∧ e'.Located := by
  -- a pattern with a language could be compiled, and without one the pattern is to blame
  have hvalue : ∀ L, (Program.ofText a c).value a.operating [] ≠ some [L] := by
    intro L hL
    obtain ⟨_, _, hok, _⟩ := b.compile_of_value hL
    cases h.symm.trans hok
  obtain ⟨e', hpattern⟩ := Builder.compile_of_no_value hvalue
  obtain ⟨_, herror, _⟩ := hpattern b
  obtain rfl : e = .pattern e' := by
    cases h.symm.trans herror
    rfl
  refine ⟨e', rfl, ?_⟩
  have hwithin := Program.ofText_within a c
  rcases hrun : runInstrs a.operating { b with nextId := 0 } [] (Program.ofText a c).instrs with
    ⟨b₁, halt | stack⟩
  · simp only [compile, hrun] at h
    cases halt with
    | stop s =>
      cases h
      exact (runInstrs_within hwithin.instrs hrun).located
    | notDeterministic => cases h
  · cases hstop : (Program.ofText a c).stop with
    | some s =>
      simp only [compile, hrun, hstop] at h
      cases h
      exact (hwithin.stop s hstop).located
    | none =>
      simp only [compile, hrun, hstop] at h
      rcases stack with _ | ⟨x, _ | ⟨y, stack⟩⟩
      · cases h
        exact PatternError.located_ofWhole rfl c
      · cases h
      · -- operands that are left over would be adjacent
        obtain ⟨Ls, hLs, hlength⟩ := exists_value_of_runInstrs hrun
        have hprogram : (Program.ofText a c).value a.operating [] = some Ls := by
          rw [Program.value, if_pos hstop, hLs]
        obtain ⟨-, -, hle, -⟩ := length_le_one_of_value ha hc hprogram
        simp only [List.length_cons] at hlength
        omega

namespace Generator

variable {g g' : Generator} {e : BuildError}

theorem evaluate_error (h : g.evaluate c = (g', .error e)) :
    ∃ b, g.builder.compile g.alphabet c = (b, .error e) := by
  rw [evaluate] at h
  split at h
  · rename_i hcompile
    cases h
    exact ⟨_, hcompile⟩
  · cases h

/-- A pattern without an automaton has a fault that is reported, whatever the generator has made
before. -/
theorem Consistent.generate_error (hg : g.Consistent) (ha : g.alphabet.Lacks operatorChars)
    (h : g.generate p = (g', .error e)) : ∃ e', e = .pattern e' ∧ e'.Located := by
  cases hc : canonical g.alphabet p with
  | error e' =>
    obtain ⟨_, hgives⟩ := hg.gives_error hc
    rw [h] at hgives
    cases hgives
    exact ⟨e', rfl, canonical_error hc⟩
  | ok c =>
    obtain ⟨g₀, helongate, hcontinues⟩ := hg.elongate_eq hc
    simp only [Generator.generate, helongate] at h
    split at h
    · cases h
    split at h
    · rename_i hevaluate
      cases h
      obtain ⟨_, hcompile⟩ := evaluate_error hevaluate
      rw [hcontinues.alphabet] at hcompile
      exact Builder.compile_error ha hc hcompile
    · cases h

end Generator

end RegexAutomata
