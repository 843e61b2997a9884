/-
What can be compiled.

The machine applies an operator to whatever operands there are, wherever they stand.  That it
still accepts nothing but derivable patterns rests on two facts.  It must have one operand left,
so a pattern has one more atom than binary operators (`length_of_valueFrom`).  And the last pass
leaves no two operands next to each other (`tolerates_of_adjacent`), so no pattern has more atoms
than that, and one with a misplaced token has fewer (`gain_le_need`).

* `derivable_of_value`, `value_of_derivable` — the canonical patterns that have a language;
* `Generator.generate_iff_derivable` — the patterns that have an automaton.
-/
import Mathlib.Algebra.Ring.Int.Defs
import Mathlib.Data.List.TakeWhile
import RegexAutomata.Proofs.Compile.Generate
import RegexAutomata.Proofs.Pattern.Derivation

open scoped Computability

namespace RegexAutomata

/-! ### Counting operands -/

/-- How many operands more there are when an operator has been applied. -/
def Operator.gain (o : Operator) : Int := 1 - o.arity

/-- How many operands more there are on account of a token. -/
def Token.gain : Token → Int
  | atom _ => 1
  | op o => o.gain

/-- How many operands more there are on account of waiting operators. -/
def gainOf (os : List Operator) : Int := (os.map Operator.gain).sum

variable {symbols : List Symbol} {Ls Ms : List (Language Symbol)}

theorem Operator.length_of_value {o : Operator} (h : o.value symbols Ls = some Ms) :
    (Ms.length : Int) = Ls.length + o.gain := by
  unfold Operator.value at h
  split at h
  all_goals first
    | (cases h; simp only [List.length_cons, gain, arity]; omega)
    | cases h

theorem gainOf_cons (o : Operator) (os : List Operator) : gainOf (o :: os) = o.gain + gainOf os :=
  List.sum_cons

theorem length_of_valueOfOperators {os : List Operator}
    (h : valueOfOperators symbols os Ls = some Ms) : (Ms.length : Int) = Ls.length + gainOf os := by
  induction os generalizing Ls with
  | nil =>
    have h : Ls = Ms := Option.some.inj h
    have hnil : gainOf [] = 0 := rfl
    rw [h]
    omega
  | cons o os ih =>
    obtain ⟨Ns, ho, hos⟩ := Option.bind_eq_some_iff.1 h
    have h1 := Operator.length_of_value ho
    have h2 := ih hos
    rw [gainOf_cons]
    omega

/-- Operators that are applied leave the others their share. -/
theorem length_of_takeWhile {ws : List Operator} {p : Operator → Bool}
    (h : valueOfOperators symbols (ws.takeWhile p) Ls = some Ms) :
    (Ms.length : Int) + gainOf (ws.dropWhile p) = Ls.length + gainOf ws := by
  have hlength := length_of_valueOfOperators h
  have hsplit : gainOf (ws.takeWhile p) + gainOf (ws.dropWhile p) = gainOf ws := by
    rw [gainOf, gainOf, ← List.sum_append, ← List.map_append, List.takeWhile_append_dropWhile]
    rfl
  omega

theorem count_dropWhile (ws : List Operator) {p : Operator → Bool} (hp : p .opening = false) :
    (ws.dropWhile p).count .opening = ws.count .opening := by
  have htake : (ws.takeWhile p).count .opening = 0 := by
    refine List.count_eq_zero.2 fun h => ?_
    rw [List.mem_takeWhile_imp h] at hp
    cases hp
  have h : (ws.takeWhile p ++ ws.dropWhile p).count .opening = _ := List.count_append
  rw [List.takeWhile_append_dropWhile, htake, zero_add] at h
  exact h.symm

/-! ### Evaluations that succeed -/

section

variable {ws : List Operator} {ts : List Token}

/-- In the end no group is open. -/
theorem valueFrom_nil_eq_some (h : valueFrom symbols ws Ls [] = some Ms) :
    ws.dropWhile (· != .opening) = [] ∧
      valueOfOperators symbols (ws.takeWhile (· != .opening)) Ls = some Ms := by
  simp only [valueFrom] at h
  cases hdrop : ws.dropWhile (· != .opening) with
  | nil =>
    rw [hdrop] at h
    exact ⟨rfl, h⟩
  | cons o outer =>
    rw [hdrop] at h
    cases h

/-- A closing parenthesis needs an opening one, and the operators behind that are applied. -/
theorem valueFrom_closing_eq_some (h : valueFrom symbols ws Ls (.op .closing :: ts) = some Ms) :
    ∃ outer Ns, ws.dropWhile (· != .opening) = .opening :: outer ∧
      valueOfOperators symbols (ws.takeWhile (· != .opening)) Ls = some Ns ∧
      valueFrom symbols outer Ns ts = some Ms := by
  simp only [valueFrom] at h
  cases hdrop : ws.dropWhile (· != .opening) with
  | nil =>
    rw [hdrop] at h
    cases h
  | cons o outer =>
    rw [hdrop] at h
    have ho : o = .opening := by
      have := List.head?_dropWhile_not (· != Operator.opening) ws
      rw [hdrop] at this
      simpa using this
    obtain ⟨Ns, hos, hts⟩ := Option.bind_eq_some_iff.1 h
    exact ⟨outer, Ns, by rw [ho], hos, hts⟩

/-- Each token and each waiting operator has its share in the operands that are left. -/
theorem length_of_valueFrom (h : valueFrom symbols ws Ls ts = some Ms) :
    (Ms.length : Int) = Ls.length + (ts.map Token.gain).sum + gainOf ws := by
  induction ts generalizing ws Ls with
  | nil =>
    obtain ⟨hdrop, hos⟩ := valueFrom_nil_eq_some h
    have hlength := length_of_takeWhile hos
    have hnil : gainOf [] = 0 := rfl
    rw [hdrop] at hlength
    rw [List.map_nil, List.sum_nil]
    omega
  | cons t ts ih =>
    rw [List.map_cons, List.sum_cons]
    cases t with
    | atom a =>
      have hlength := ih h
      rw [List.length_cons] at hlength
      show _ = _ + (1 + _) + _
      push_cast at hlength
      omega
    | op o =>
      show _ = _ + (o.gain + _) + _
      by_cases hclosing : o = .closing
      · subst hclosing
        obtain ⟨outer, Ns, hdrop, hos, hts⟩ := valueFrom_closing_eq_some h
        have hinner := length_of_takeWhile hos
        have hlength := ih hts
        have hopening : Operator.opening.gain = 0 := rfl
        have hclosing : Operator.closing.gain = 0 := rfl
        rw [hdrop, gainOf_cons] at hinner
        omega
      · rw [valueFrom_op hclosing] at h
        obtain ⟨Ns, hos, hts⟩ := Option.bind_eq_some_iff.1 h
        have hbefore := length_of_takeWhile hos
        have hlength := ih hts
        rw [gainOf_cons] at hlength
        omega

/-- The tokens close the groups that are open. -/
theorem balanced_of_valueFrom (h : valueFrom symbols ws Ls ts = some Ms) :
    Balanced (ws.count .opening) ts := by
  induction ts generalizing ws Ls with
  | nil =>
    obtain ⟨hdrop, _⟩ := valueFrom_nil_eq_some h
    have hcount := count_dropWhile ws (p := (· != .opening)) rfl
    rw [hdrop] at hcount
    exact hcount.symm
  | cons t ts ih =>
    cases t with
    | atom a => exact ih h
    | op o =>
      by_cases hclosing : o = .closing
      · subst hclosing
        obtain ⟨outer, Ns, hdrop, _, hts⟩ := valueFrom_closing_eq_some h
        have hcount := count_dropWhile ws (p := (· != .opening)) rfl
        rw [hdrop, List.count_cons_self] at hcount
        rw [← hcount]
        exact ⟨Nat.succ_pos _, ih hts⟩
      · rw [valueFrom_op hclosing] at h
        obtain ⟨Ns, _, hts⟩ := Option.bind_eq_some_iff.1 h
        have hbalanced := ih hts
        -- an operator is only applied inside the group in which it waits
        have hcount := count_dropWhile ws (p := (·.precedes o)) (by cases o <;> rfl)
        rw [List.count_cons, hcount] at hbalanced
        cases o <;> first | exact hbalanced | exact absurd rfl hclosing

end

/-! ### Adjacent tokens -/

/-- May this token come next, as far as the last pass takes care of it?  It separates operands and
drops pairs of negations. -/
def Place.tolerates : Place → Token → Bool
  | behind, .atom _ => false
  | behind, .op o => !(o == .opening || o == .complement)
  | negated, .op o => o != .complement
  | _, _ => true

/-- How many operands are still missing at a place. -/
def Place.need : Place → Int
  | behind => 0
  | _ => 1

/-- A token that is tolerated provides no more than what is missing, and less if the grammar does
not admit it. -/
theorem Place.gain_add_need {p : Place} {t : Token} (h : p.tolerates t = true) :
    t.gain + t.place.need ≤ p.need ∧ (t.gain + t.place.need = p.need → p.admits t = true) := by
  cases t with
  | atom a => cases p <;> first | exact ⟨le_refl _, fun _ => rfl⟩ | cases h
  | op o =>
    cases p <;> cases o <;>
      first
      | exact ⟨by decide, fun _ => rfl⟩
      | exact ⟨by decide, fun h => absurd h (by decide)⟩
      | cases h

/-- Tolerated tokens provide no more operands than what is missing, and less if one of them is
misplaced. -/
theorem gain_le_need {ts : List Token} {p : Place} (hp : ∀ t ∈ ts.head?, p.tolerates t = true)
    (hts : ts.IsChain fun t u => t.place.tolerates u = true) :
    (ts.map Token.gain).sum ≤ p.need ∧ ((ts.map Token.gain).sum = p.need → WellPlaced p ts) := by
  induction ts generalizing p with
  | nil =>
    cases p with
    | behind => exact ⟨le_refl _, fun _ => rfl⟩
    | _ => exact ⟨by decide, fun h => absurd h (by decide)⟩
  | cons t ts ih =>
    obtain ⟨hhead, htail⟩ := List.isChain_cons.1 hts
    obtain ⟨hle, hplaced⟩ := ih hhead htail
    obtain ⟨hle', hadmits⟩ := Place.gain_add_need (hp t rfl)
    rw [List.map_cons, List.sum_cons]
    refine ⟨by omega, fun heq => ?_⟩
    exact ⟨hadmits (by omega), hplaced (by omega)⟩

section Disjoint

variable {a : Alphabet} (ha : a.Lacks operatorChars) {p q : Piece} {t u : Token}

include ha

theorem endsOperand_of_spells (h : Piece.Spells a p t) (ht : t.place = .behind) :
    p.endsOperand = true := by
  cases h with
  | escaped c => rfl
  | literal c hc => exact Piece.endsOperand_bare (ha.contains hc)
  | empty => rfl
  | any => rfl
  | op o => cases o <;> first | rfl | cases ht

theorem startsOperand_of_spells (h : Piece.Spells a p t)
    (ht : Place.behind.tolerates t = false) : p.startsOperand = true := by
  cases h with
  | escaped c => rfl
  | literal c hc => exact Piece.startsOperand_bare (ha.contains hc)
  | empty => rfl
  | any => rfl
  | op o => cases o <;> first | rfl | cases ht

/-- Tokens are tolerated next to each other if their pieces may be adjacent. -/
theorem tolerates_of_adjacent (hadj : Adjacent p q) (hp : Piece.Spells a p t)
    (hq : Piece.Spells a q u) : t.place.tolerates u = true := by
  by_contra hne
  have hne : t.place.tolerates u = false := Bool.eq_false_of_not_eq_true hne
  cases hplace : t.place with
  | operand =>
    rw [hplace] at hne
    cases u <;> cases hne
  | behind =>
    rw [hplace] at hne
    exact hadj.1 ⟨endsOperand_of_spells ha hp hplace, startsOperand_of_spells ha hq hne⟩
  | negated =>
    rw [hplace] at hne
    -- only the negation has this place, and only a second one is not tolerated there
    have hp : p = .bare '!' := by
      cases hp with
      | op o => cases o <;> first | rfl | cases hplace
      | _ => cases hplace
    have hq : q = .bare '!' := by
      cases hq with
      | op o => cases o <;> first | rfl | cases hne
      | _ => cases hne
    exact hadj.2 ⟨hp, hq⟩

theorem isChain_of_spells {ps : List Piece} {ts : List Token}
    (h : List.Forall₂ (Piece.Spells a) ps ts) (hps : ps.IsChain Adjacent) :
    ts.IsChain fun t u => t.place.tolerates u = true := by
  induction h with
  | nil => exact .nil
  | cons hp hrest ih =>
    cases hrest with
    | nil => exact .singleton _
    | cons hq hrest =>
      obtain ⟨hadj, hps⟩ := List.isChain_cons_cons.1 hps
      exact .cons_cons (tolerates_of_adjacent ha hadj hp hq) (ih hps)

end Disjoint

/-! ### Derivable patterns -/

/-- The text can be read, and its tokens are derivable from the grammar. -/
def Derivable (a : Alphabet) (c : Text) : Prop :=
  (scan a c).stop = none ∧ ∃ e : Canon .expr, e.tokens = (scan a c).tokens.map (·.2)

/-- A text is not derivable if it has a character that stands for no token. -/
theorem not_derivable_of_bare {a : Alphabet} {t : Text} {c : Char} (hc : a.hasChar c = false)
    (hoperator : isOperator c = false) (hspecial : isSpecial c = false)
    (h : Piece.bare c ∈ Piece.split t) : ¬ Derivable a t := by
  rintro ⟨hstop, _⟩
  obtain ⟨tk, hspells⟩ := exists_spells_of_mem (spells_of_scanFrom hstop) h
  exact not_spells_bare hc hoperator hspecial tk hspells

/-- The program of a canonical pattern never leaves more than one language, and leaves one only if
each token is admitted at its place. -/
theorem length_le_one_of_value {a : Alphabet} (ha : a.Lacks operatorChars) {p c : Text}
    (hc : canonical a p = .ok c) (h : (Program.ofText a c).value symbols [] = some Ls) :
    (scan a c).stop = none ∧ Balanced 0 ((scan a c).tokens.map (·.2)) ∧ Ls.length ≤ 1 ∧
      (Ls.length = 1 → WellPlaced .operand ((scan a c).tokens.map (·.2))) := by
  rw [Program.value_ofText] at h
  split at h
  · rename_i hstop
    have hlength := length_of_valueFrom h
    have hchain := isChain_of_spells ha (spells_of_scanFrom hstop) (isChain_split_canonical hc)
    have hfirst : ∀ t ∈ ((scan a c).tokens.map (·.2)).head?, Place.operand.tolerates t = true := by
      rintro (_ | _) _ <;> rfl
    obtain ⟨hle, hplaced⟩ := gain_le_need hfirst hchain
    have hnil : gainOf [] = 0 := rfl
    have hneed : Place.operand.need = 1 := rfl
    simp only [List.length_nil] at hlength
    -- one operand is missing at first, so the tokens provide one at most
    exact ⟨hstop, balanced_of_valueFrom h, by omega, fun hone => hplaced (by omega)⟩
  · cases h

/-- A canonical pattern whose program leaves one language is derivable. -/
theorem derivable_of_value {a : Alphabet} (ha : a.Lacks operatorChars) {p c : Text}
    (hc : canonical a p = .ok c) {L : Language Symbol}
    (h : (Program.ofText a c).value symbols [] = some [L]) : Derivable a c := by
  obtain ⟨hstop, hbalanced, -, hplaced⟩ := length_le_one_of_value ha hc h
  exact ⟨hstop, exists_tokens_eq_iff.2 ⟨hplaced rfl, hbalanced⟩⟩

theorem value_of_derivable (symbols : List Symbol) {a : Alphabet} {c : Text}
    (h : Derivable a c) :
    ∃ L, (Program.ofText a c).value symbols [] = some [L] := by
  obtain ⟨hstop, e, he⟩ := h
  exact ⟨_, by rw [Program.value_ofText, if_pos hstop, ← he, valueFrom_expr]⟩

namespace Generator

/-- A pattern with a canonical form has an automaton if and only if the canonical form is
derivable from the grammar, that is, if it can be read, each token is admitted at its place and the
parentheses are balanced.  If there is no automaton, the pattern is to blame. -/
theorem generate_iff_derivable (a : Alphabet) (caching transitionCaching : Bool)
    (ha : a.Lacks (operatorChars ++ shorthandChars ++ specialChars)) (p c : Text)
    (hc : ((new a caching transitionCaching).elongate p).2 = .ok c) :
    ((∃ g h, (new a caching transitionCaching).generate p = (g, .ok h)) ↔ Derivable a c) ∧
      (¬ Derivable a c →
        ∃ g e, (new a caching transitionCaching).generate p = (g, .error (.pattern e))) ∧
      (Derivable a c ↔ (scan a c).stop = none ∧
        WellPlaced .operand ((scan a c).tokens.map (·.2)) ∧
        Balanced 0 ((scan a c).tokens.map (·.2))) := by
  have hc : canonical a p = .ok c := (elongate_new a caching transitionCaching p).symm.trans hc
  have hlacks : a.Lacks operatorChars := (Alphabet.Lacks.append.1 (Alphabet.Lacks.append.1 ha).1).1
  have hfail : ¬ Derivable a c →
      ∃ g e, (new a caching transitionCaching).generate p = (g, .error (.pattern e)) := by
    intro hnot
    refine generate_of_no_value rfl hc rfl fun L hL => hnot ?_
    exact derivable_of_value hlacks hc hL
  refine ⟨⟨?_, ?_⟩, hfail, and_congr_right fun _ => exists_tokens_eq_iff⟩
  · rintro ⟨g, h, hgenerate⟩
    by_contra hnot
    obtain ⟨g', e, herror⟩ := hfail hnot
    rw [hgenerate] at herror
    cases herror
  · intro hd
    obtain ⟨L, hvalue⟩ := value_of_derivable a.operating hd
    obtain ⟨g, h, hgenerate, _⟩ :=
      generate_of_value (g := new a caching transitionCaching) (p := p) rfl hc rfl hvalue
    exact ⟨g, h, hgenerate⟩

theorem generate_iff_derivable_missing_operand :
    (Alphabet.ofText ['a']).Lacks (operatorChars ++ shorthandChars ++ specialChars) ∧
      ((new (.ofText ['a']) true true).elongate ['(', 'a', '|', ')', 'a']).2 =
        .ok ['(', 'a', '|', ')', '&', 'a'] ∧
      ∃ g e, (new (.ofText ['a']) true true).generate ['(', 'a', '|', ')', 'a'] =
        (g, .error (.pattern e)) := by
  have hlacks :
      (Alphabet.ofText ['a']).Lacks (operatorChars ++ shorthandChars ++ specialChars) := by
    decide
  have helongate : ((new (.ofText ['a']) true true).elongate ['(', 'a', '|', ')', 'a']).2 =
      .ok ['(', 'a', '|', ')', '&', 'a'] := by
    decide +kernel
  obtain ⟨_, hfail, hderivable⟩ := generate_iff_derivable _ true true hlacks _ _ helongate
  refine ⟨hlacks, helongate, hfail fun hd => ?_⟩
  obtain ⟨_, hplaced, _⟩ := hderivable.1 hd
  revert hplaced
  decide

end Generator

end RegexAutomata
