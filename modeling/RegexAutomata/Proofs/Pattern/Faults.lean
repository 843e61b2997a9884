/-
Where a pattern is wrong.

An error of the passes that rewrite a pattern names a fault and an index in the text that was being
processed, part of which has been rewritten by then.  What has been rewritten is made of whole pieces,
and an abbreviation looks for its operand piece by piece.  So the index is always where a piece
starts, never behind an escape marker (`Piece.StartsAt`).

* `operandOf_error` — an operand that is not found;
* `operandAt_before` — looking it up by its index never leaves the text;
* `next_error`, `expandFrom_error` — one step of the reading, and the whole of it;
* `canonical_error` — a pattern without a canonical form.
-/
import RegexAutomata.Proofs.Pattern.Context

namespace RegexAutomata

open Piece Shorthand

/-! ### Indices of pieces -/

namespace Piece

variable {t : Text} {ps qs rs : List Piece} {k : Nat}

theorem width_append (ps qs : List Piece) : width (ps ++ qs) = width ps + width qs := by
  rw [← length_join, join_append, List.length_append, length_join, length_join]

theorem width_reverse (ps : List Piece) : width ps.reverse = width ps := by
  induction ps with
  | nil => rfl
  | cons p ps ih =>
    rw [List.reverse_cons, width_append, ih, Nat.add_comm]
    rfl

theorem width_pos (h : ps ≠ []) : 0 < width ps := by
  obtain ⟨p, ps, rfl⟩ := List.exists_cons_of_ne_nil h
  have hsize : 0 < p.size := by cases p <;> simp [size]
  exact Nat.add_pos_left hsize _

theorem split_ne_nil (h : t ≠ []) : split t ≠ [] := by
  intro hnil
  rw [← join_split t, hnil] at h
  exact h rfl

/-- A piece of the text starts at this index. -/
def StartsAt (t : Text) (k : Nat) : Prop :=
  ∃ qs rs, split t = qs ++ rs ∧ rs ≠ [] ∧ k = width qs

/-- The character at this index stands behind its escape marker. -/
def IsEscaped (t : Text) (k : Nat) : Prop :=
  ∃ qs c rs, split t = qs ++ escaped c :: rs ∧ k = width qs + 1

theorem StartsAt.lt_length (h : StartsAt t k) : k < t.length := by
  obtain ⟨qs, rs, hsplit, hne, rfl⟩ := h
  have hpos := width_pos hne
  rw [← join_split t, length_join, hsplit, width_append]
  omega

/-- An escaped pair starts with its marker. -/
theorem StartsAt.not_isEscaped (h : StartsAt t k) : ¬ IsEscaped t k := by
  obtain ⟨qs, rs, hsplit, _, rfl⟩ := h
  rintro ⟨qs', c, rs', hsplit', hk⟩
  rw [hsplit] at hsplit'
  rcases List.append_eq_append_iff.1 hsplit' with ⟨ms, rfl, _⟩ | ⟨ms, rfl, hms⟩
  · rw [width_append] at hk
    omega
  · -- the pair as a whole would have to stand before the index
    rw [width_append] at hk
    cases ms with
    | nil => exact absurd hk (by simp [width])
    | cons m ms =>
      obtain rfl : escaped c = m := (List.cons.inj hms).1
      have hpair : 2 ≤ width (escaped c :: ms) := Nat.le_add_right 2 _
      omega

/-- Pieces in front of a text start where they are, and so does the text. -/
theorem startsAt_append (h : bare escapeMark ∉ qs ++ rs) (ht : t ≠ []) :
    StartsAt (join (qs ++ rs) ++ t) (width qs) :=
  ⟨qs, rs ++ split t, by rw [split_join_append h, List.append_assoc],
    List.append_ne_nil_of_right_ne_nil _ (split_ne_nil ht), rfl⟩

theorem startsAt_behind (h : bare escapeMark ∉ qs) (ht : t ≠ []) :
    StartsAt (join qs ++ t) (join qs).length :=
  ⟨qs, split t, split_join_append h t, split_ne_nil ht, length_join qs⟩

end Piece

/-! ### Faults that are reported -/

/-- The faults that a pattern can have.  The other two are never reported: operands are not next to
each other, and no operator that is applied is a parenthesis. -/
def Fault.reported : Fault → Bool
  | .missingOperator | .unmatched => false
  | _ => true

/-- The kinds of the faults that are reported. -/
def FaultKind.documented : List FaultKind :=
  [.unbalancedParentheses, .invalidRepetitionRange, .invalidCharacterRange, .emptyOperandStack,
    .unsupportedSymbol]

theorem Fault.kind_mem_documented {f : Fault} (h : f.reported = true) :
    f.kind ∈ FaultKind.documented := by
  cases f with
  | missingOperator | unmatched => cases h
  | _ => simp [kind, FaultKind.documented]

theorem Fault.reported_of_kind {f : Fault} (h : f.kind = .unsupportedSymbol) :
    f.reported = true := by
  cases f with
  | missingOperator | unmatched => cases h
  | _ => rfl

/-- The fault is one that is reported, and a piece of the text starts at its index, if it has one. -/
structure PatternError.Located (e : PatternError) : Prop where
  fault : e.fault.reported = true
  position : ∀ k ∈ e.position, ∃ n : Nat, k = n ∧ StartsAt e.pattern n

theorem PatternError.located_atIndex {f : Fault} {t : Text} {k : Nat} (hf : f.reported = true)
    (hk : StartsAt t k) : (atIndex f t k).Located where
  fault := hf
  position := by
    rintro _ ⟨⟩
    exact ⟨k, rfl, hk⟩

theorem PatternError.located_ofWhole {f : Fault} (hf : f.reported = true) (t : Text) :
    (ofWhole f t).Located where
  fault := hf
  position := by simp [ofWhole]

/-! ### Operands -/

/-- The index that a fault is found at. -/
def OperandFault.index : OperandFault → Nat
  | missing k => k
  | unmatched k => k

/-- The search for an operand fails between two pieces, or before all of them. -/
theorem operand_error {ps : List Piece} {f : OperandFault} (h : operand ps = .error f) :
    ∃ front rest, ps = front ++ rest ∧ f.index = width rest := by
  induction ps with
  | nil =>
    cases h
    exact ⟨[], [], rfl, rfl⟩
  | cons p ps ih =>
    cases p with
    | escaped c => cases h
    | bare c =>
      rw [operand] at h
      split at h
      · cases hinner : operand ps with
        | ok found =>
          rw [hinner] at h
          cases h
        | error f' =>
          rw [hinner] at h
          cases h
          obtain ⟨front, rest, rfl, hindex⟩ := ih hinner
          exact ⟨bare c :: front, rest, rfl, hindex⟩
      split at h
      · split at h
        · cases h
        · cases h
          exact ⟨[bare c], ps, rfl, rfl⟩
      split at h
      · cases h
        exact ⟨[], bare c :: ps, rfl, Nat.add_comm _ _⟩
      · cases h

theorem operandOf_error {t : Text} {f : OperandFault} (h : operandOf t = .error f) :
    ∃ front back, split t = front ++ back ∧ f.index = width front := by
  rw [operandOf] at h
  cases hfound : operand (split t).reverse with
  | ok found =>
    rw [hfound] at h
    cases h
  | error f' =>
    rw [hfound] at h
    cases h
    obtain ⟨front, rest, hsplit, hindex⟩ := operand_error hfound
    refine ⟨rest.reverse, front.reverse, ?_, by rw [hindex, width_reverse]⟩
    rw [← List.reverse_append, ← hsplit, List.reverse_reverse]

theorem OperandFault.located_toError {t : Text} {last : Char} {f : OperandFault}
    (h : StartsAt t f.index) : (f.toError t last).Located := by
  cases f with
  | missing k => exact PatternError.located_atIndex rfl h
  | unmatched k => exact PatternError.located_atIndex rfl h

theorem lacksOperand_of_lt {t : Text} {k : Nat} (hk : k < t.length) (last : Char) :
    lacksOperand t k = .pattern ((OperandFault.missing k).toError t last) := by
  have hchar : charAt t k = some (t.getD k last) := by
    rw [charAt, if_pos (Int.natCast_nonneg k), Int.toNat_natCast, List.getD_eq_getElem?_getD,
      List.getElem?_eq_getElem hk, Option.getD_some]
  rw [lacksOperand, hchar]
  rfl

/-- Looking up the operand before an abbreviation by its index gives what reading the text before
the abbreviation gives.  The index and those that errors name are in the text. -/
theorem operandAt_before (done : Text) (c : Char) (after : Text) :
    operandAt (done.reverse ++ c :: after) ((done.length : Int) - 1) =
      (operandOf done.reverse).mapError
        fun f => .pattern (f.toError (done.reverse ++ c :: after) c) := by
  set t := done.reverse ++ c :: after with ht
  have hlength : t.length = done.length + (after.length + 1) := by simp [ht]
  cases hdone : done.length with
  | zero =>
    -- the index is in front of the text
    obtain rfl := List.length_eq_zero_iff.1 hdone
    exact congrArg Except.error (lacksOperand_of_lt (k := 0) (by omega) c)
  | succ n =>
    have hnat : (((n + 1 : Nat) : Int) - 1).toNat + 1 = done.length := by omega
    have htake : t.take done.length = done.reverse :=
      List.take_left' (List.length_reverse ..)
    rw [operandAt, if_neg (by omega), if_pos (by omega), hnat, htake]
    cases hoperand : operandOf done.reverse with
    | ok part => rfl
    | error f =>
      obtain ⟨front, back, hsplit, hindex⟩ := operandOf_error hoperand
      have hwidth : width front + width back = done.length := by
        rw [← width_append, ← hsplit, ← length_join, join_split, List.length_reverse]
      cases f with
      | missing k =>
        have hk : k = width front := hindex
        exact congrArg Except.error (lacksOperand_of_lt (by omega) c)
      | unmatched k => rfl

/-! ### Steps of the reading -/

section

variable {a : Alphabet} {ds : List Piece} {c : Char} {after t : Text} {e : PatternError}

theorem spell_error {part : Text} {f : Fault} (h : spell a part c after = .error f) :
    f.reported = true := by
  unfold spell at h
  repeat' split at h
  all_goals first
    | (cases h; rfl)
    | cases h

theorem replace_error (hds : bare escapeMark ∉ ds)
    (h : replace a (join ds).reverse c after = .error e) : e.Located := by
  rw [replace, List.reverse_reverse] at h
  cases hoperand : operandOf (join ds) with
  | error f =>
    rw [hoperand] at h
    cases h
    obtain ⟨front, back, hsplit, hindex⟩ := operandOf_error hoperand
    rw [split_join_of_complete hds] at hsplit
    subst hsplit
    refine OperandFault.located_toError ?_
    rw [hindex]
    exact startsAt_append hds (List.cons_ne_nil c after)
  | ok part =>
    rw [hoperand] at h
    cases hspell : spell a part c after with
    | ok spelled =>
      obtain ⟨replacement, rest⟩ := spelled
      simp only [hspell] at h
      cases h
    | error f =>
      simp only [hspell] at h
      cases h
      rw [List.length_reverse]
      exact PatternError.located_atIndex (spell_error hspell)
        (startsAt_behind hds (List.cons_ne_nil c after))

theorem next_error (hds : bare escapeMark ∉ ds)
    (h : next a (join ds).reverse c after = .error e) : e.Located := by
  rw [next.eq_def] at h
  split at h
  · cases after with
    | cons d after => cases h
    | nil =>
      cases h
      rw [List.reverse_reverse, List.length_reverse]
      exact PatternError.located_atIndex rfl (startsAt_behind hds (List.cons_ne_nil c []))
  split at h
  · exact replace_error hds h
  · cases h

/-- The reading fails at one of its steps, when only whole pieces have been read and rewritten. -/
theorem expandFrom_error (hds : bare escapeMark ∉ ds)
    (h : expandFrom a (join ds).reverse t = .error e) : e.Located := by
  induction hlength : t.length using Nat.strong_induction_on generalizing t ds with
  | _ n ih =>
    cases t with
    | nil =>
      rw [expandFrom] at h
      cases h
    | cons c after =>
      rw [expandFrom] at h
      split at h
      · rename_i hnext
        cases h
        exact next_error hds hnext
      · rename_i done left hnext
        obtain ⟨es, hes, rfl, _⟩ := next_spec hds hnext
        have hshort : left.length < n := by
          rw [← hlength]
          exact Nat.lt_succ_of_le (length_next_le hnext)
        exact ih left.length hshort hes h rfl

/-- A pattern without a canonical form has a fault that is reported, at a place where a piece of the
text starts that its reading has led to. -/
theorem canonical_error (h : canonical a t = .error e) : e.Located := by
  unfold canonical at h
  split at h
  · cases h
  · cases hexpand : expand a t with
    | ok u =>
      rw [hexpand] at h
      cases h
    | error e' =>
      rw [hexpand] at h
      cases h
      have hnil : bare escapeMark ∉ ([] : List Piece) := List.not_mem_nil
      exact expandFrom_error hnil hexpand

end

end RegexAutomata
