/-
How compiling a pattern can fail.

There is an automaton for a pattern, or the pattern is to blame.  What the session has done before
makes no difference, and neither do the internal checks of the compiler: an operand that is inverted
but not deterministic, operands that are left over, and a parenthesis that is applied as an operator
never come up.  An error that has an index names a character of the text that it shows, and not one
that an escape marker makes a literal.
-/
import RegexAutomata.Proofs.Compile.Faults
import RegexAutomata.Proofs.Session.Harmless

namespace RegexAutomata

open Piece

namespace Session

/-- For each pattern, a session has an automaton or an error of one of five kinds.  The index of an
error is in its text and not behind an escape marker.  Looking up the operand of an abbreviation by
its index never leaves the text, and gives the operand or the error that rewriting goes on with. -/
theorem generate_documented (a : Alphabet) (caching transitionCaching : Bool)
    (ha : a.Lacks (operatorChars ++ shorthandChars ++ specialChars)) (steps : List Step)
    (hsteps : ∀ st ∈ steps, st.harmless = true) (p : Text) :
    let r := (((new (.new a caching transitionCaching)).after steps).generator.generate p).2
    ((∃ h, r = .ok h) ∨ ∃ e, r = .error (.pattern e) ∧
      e.fault.kind ∈ FaultKind.documented ∧ e.fault ≠ .missingOperator ∧ e.fault ≠ .unmatched ∧
      ∀ k ∈ e.position, ∃ n : Nat, k = n ∧ n < e.pattern.length ∧ ¬ IsEscaped e.pattern n) ∧
    ∀ (done : Text) (c : Char) (after : Text),
      let t := done.reverse ++ c :: after
      let found := operandAt t ((done.length : Int) - 1)
      found ≠ .error .outOfRange ∧
        found = (operandOf done.reverse).mapError fun f => .pattern (f.toError t c) := by
  obtain ⟨hg, halphabet⟩ := consistent_generator_after a caching transitionCaching hsteps
  set g := ((new (.new a caching transitionCaching)).after steps).generator
  refine ⟨?_, fun done c after => ?_⟩
  · cases hresult : (g.generate p).2 with
    | ok h => exact .inl ⟨h, rfl⟩
    | error e =>
      obtain ⟨e, rfl, hlocated⟩ :=
        hg.generate_error (halphabet.symm ▸ ha.operators) (Prod.ext rfl hresult)
      have hfault := hlocated.fault
      refine .inr ⟨e, rfl, Fault.kind_mem_documented hfault, ?_, ?_, fun k hk => ?_⟩
      · rintro heq
        rw [heq] at hfault
        cases hfault
      · rintro heq
        rw [heq] at hfault
        cases hfault
      · obtain ⟨n, rfl, hstart⟩ := hlocated.position k hk
        exact ⟨n, rfl, hstart.lt_length, hstart.not_isEscaped⟩
  · have hbefore := operandAt_before done c after
    refine ⟨?_, hbefore⟩
    rw [hbefore]
    cases operandOf done.reverse <;> nofun

theorem generate_documented_behindEscape :
    let steps := [Step.make "wrong" (.generate ['(', 'a'])]
    let g := ((new (.new (.ofText ['a']) true true)).after steps).generator
    let e : PatternError := ⟨.noOperand '+', "(/))!+".toList, some 5⟩
    (Alphabet.ofText ['a']).Lacks (operatorChars ++ shorthandChars ++ specialChars) ∧
      (∀ st ∈ steps, st.harmless = true) ∧
      (g.generate ['/', ')', '!', '+']).2 = .error (.pattern e) ∧
      e.fault.kind ∈ FaultKind.documented ∧ ¬ IsEscaped e.pattern 5 ∧ IsEscaped e.pattern 2 := by
  intro steps g e
  have hlacks :
      (Alphabet.ofText ['a']).Lacks (operatorChars ++ shorthandChars ++ specialChars) := by
    decide
  have hharmless : ∀ st ∈ steps, st.harmless = true := by
    simp [steps, Step.harmless, Making.harmless]
  have herror : (g.generate ['/', ')', '!', '+']).2 = .error (.pattern e) := by decide +kernel
  have hpair : IsEscaped e.pattern 2 := ⟨[.bare '('], ')', _, rfl, rfl⟩
  obtain ⟨⟨h, hok⟩ | ⟨e', he', hkind, -, -, hposition⟩, -⟩ :=
    generate_documented (.ofText ['a']) true true hlacks steps hharmless ['/', ')', '!', '+']
  · cases herror.symm.trans hok
  · obtain rfl : e = e' := by simpa using herror.symm.trans he'
    obtain ⟨n, hn, -, hescaped⟩ := hposition 5 rfl
    obtain rfl : 5 = n := by omega
    exact ⟨hlacks, hharmless, herror, hkind, hescaped, hpair⟩

end Session

end RegexAutomata
