/-
Looking up an operand by the index of its last character.

An operand consists of whole pieces: a base and any number of stars behind it (`IsStarred`).  A base
is a single piece, or a group from its opening parenthesis to the closing one that is its partner.
`operandAt` reads backwards, but which characters are escaped is only known when a text is read
forwards, so the index may also be that of an escape marker whose character comes next.

* `exists_width_or_inside` — an index is between two pieces or inside an escaped pair;
* `operand_of_isStarred`, `isStarred_of_operand` — the operand at the end of some pieces;
* `operandAt_eq_slice` — the operand at an index of a text.
-/
import RegexAutomata.Proofs.Pattern.Faults

namespace RegexAutomata

open Piece

/-! ### Operands and the slices of a text -/

/-- What stars apply to: a piece that is no operator and no bare part of an abbreviation, or a group
with all the pieces up to the partner of its opening parenthesis. -/
inductive IsBase : List Piece → Prop
  | bare {c : Char} (hop : isOperator c = false) (hsh : isShorthand c = false) : IsBase [bare c]
  | escaped (c : Char) : IsBase [escaped c]
  | group {qs : List Piece} (h : Closes 0 qs) : IsBase (grouped qs)

/-- A base with any number of stars. -/
inductive IsStarred : List Piece → Prop
  | stars {base : List Piece} (h : IsBase base) (n : Nat) :
    IsStarred (base ++ List.replicate n (bare '*'))

/-- The characters of the text from the index `first` to the index `last`, both included, are whole
pieces and form an operand. -/
def IsOperandSlice (t : Text) (first last : Nat) : Prop :=
  ∃ front qs back, split t = front ++ qs ++ back ∧ IsStarred qs ∧ first = width front ∧
    last + 1 = width (front ++ qs)

section

variable {ps qs found : List Piece} {t : Text} {k : Nat}

/-! ### Indices and pieces -/

/-- An index is where a piece ends or starts, or between an escape marker and its character. -/
theorem exists_width_or_inside (hk : k ≤ width ps) :
    (∃ front back, ps = front ++ back ∧ k = width front) ∨
      ∃ front c back, ps = front ++ escaped c :: back ∧ k = width front + 1 := by
  induction ps generalizing k with
  | nil => exact .inl ⟨[], [], rfl, Nat.le_zero.1 hk⟩
  | cons p ps ih =>
    by_cases hzero : k = 0
    · exact .inl ⟨[], p :: ps, rfl, hzero⟩
    have hwidth : ∀ qs, width (p :: qs) = p.size + width qs := fun _ => rfl
    rw [hwidth] at hk
    by_cases hsize : p.size ≤ k
    · have hleft : k - p.size ≤ width ps := by omega
      rcases ih hleft with ⟨front, back, rfl, hfront⟩ | ⟨front, c, back, rfl, hfront⟩
      · exact .inl ⟨p :: front, back, rfl, by rw [hwidth]; omega⟩
      · exact .inr ⟨p :: front, c, back, rfl, by rw [hwidth]; omega⟩
    · -- only a pair is long enough
      cases p with
      | bare c => exact absurd (Nat.pos_of_ne_zero hzero) hsize
      | escaped c =>
        have hone : k = 1 := by simp only [size] at hsize; omega
        exact .inr ⟨[], c, ps, rfl, hone⟩

/-- Only the last piece of a text can be an escape marker that stands alone. -/
theorem complete_of_proper_append (h : Proper (ps ++ qs)) (hqs : qs ≠ []) :
    bare escapeMark ∉ ps := by
  induction ps with
  | nil => exact List.not_mem_nil
  | cons p ps ih =>
    obtain ⟨hp, hps⟩ := h
    rw [List.mem_cons, not_or]
    refine ⟨fun hmark => ?_, ih hps⟩
    exact hqs (List.append_eq_nil_iff.1 (hp hmark.symm)).2

theorem take_width (h : split t = ps ++ qs) : t.take (width ps) = join ps := by
  rw [← join_split t, h, join_append]
  exact List.take_left' (length_join ps)

/-! ### The operand at the end of some pieces -/

theorem IsStarred.star (h : IsStarred qs) : IsStarred (qs ++ [bare '*']) := by
  obtain ⟨hbase, n⟩ := h
  rw [List.append_assoc, ← List.replicate_succ']
  exact .stars hbase (n + 1)

theorem IsBase.isStarred (h : IsBase qs) : IsStarred qs := by
  have hstars := IsStarred.stars h 0
  rwa [List.replicate_zero, List.append_nil] at hstars

/-- What is found has the form of an operand. -/
theorem isStarred_of_operand (h : operand ps = .ok found) : IsStarred found.reverse := by
  rw [operand_eq_ok_iff] at h
  induction h with
  | plain hop hsh => exact (IsBase.bare hop hsh).isStarred
  | escaped c => exact (IsBase.escaped c).isStarred
  | group hgroup =>
    obtain ⟨qs, hqs, rfl⟩ := closes_of_groupBack hgroup
    rw [← reverse_grouped, List.reverse_reverse]
    exact (IsBase.group hqs).isStarred
  | star _ ih =>
    rw [List.reverse_cons]
    exact ih.star

/-- And it is the end of what is searched. -/
theorem exists_of_operand_reverse (h : operand ps.reverse = .ok found) :
    ∃ front qs, ps = front ++ qs ∧ found = qs.reverse ∧ IsStarred qs := by
  obtain ⟨⟨rest, hrest⟩, _⟩ := operand_spec h
  refine ⟨rest.reverse, found.reverse, ?_, (List.reverse_reverse found).symm,
    isStarred_of_operand h⟩
  rw [← List.reverse_append, ← hrest, List.reverse_reverse]

theorem operand_of_isBase (h : IsBase qs) (hcomplete : bare escapeMark ∉ qs) (ps : List Piece) :
    operand (ps ++ qs).reverse = .ok qs.reverse := by
  cases h with
  | @bare c hop hsh =>
    have he : c ≠ escapeMark := by
      rintro rfl
      exact hcomplete (.head _)
    exact operand_append (.plain hop hsh he) ps
  | escaped c =>
    rw [List.reverse_append]
    rfl
  | @group qs h =>
    have hinside : bare escapeMark ∉ qs := fun hmem =>
      hcomplete (List.mem_append.2 (.inl (.tail _ hmem)))
    exact operand_append (.group ⟨h.nested, hinside⟩) ps

theorem operand_stars (n : Nat) (ps : List Piece) :
    operand (List.replicate n (bare '*') ++ ps) =
      (operand ps).map (List.replicate n (bare '*') ++ ·) := by
  induction n with
  | zero => exact (congrFun Except.map_id (operand ps)).symm
  | succ n ih =>
    rw [List.replicate_succ, List.cons_append, operand, if_pos rfl, ih]
    cases operand ps <;> rfl

/-- An operand is found, whatever stands before it. -/
theorem operand_of_isStarred (h : IsStarred qs) (hcomplete : bare escapeMark ∉ qs)
    (ps : List Piece) : operand (ps ++ qs).reverse = .ok qs.reverse := by
  obtain ⟨hbase, n⟩ := h
  have hinside : bare escapeMark ∉ _ := fun hmem => hcomplete (List.mem_append.2 (.inl hmem))
  rw [← List.append_assoc, List.reverse_append, List.reverse_replicate, operand_stars,
    operand_of_isBase hbase hinside, List.reverse_append, List.reverse_replicate]
  rfl

/-! ### The operand at an index -/

/-- An index with a character behind it is looked up in the text before that character. -/
theorem operandAt_of_lt {i : Nat} (hi : i + 1 < t.length) :
    operandAt t i =
      (operandOf (t.take (i + 1))).mapError fun f => .pattern (f.toError t t[i + 1]) := by
  have htext : t.take (i + 1) ++ t[i + 1] :: t.drop (i + 1 + 1) = t := by
    rw [List.cons_getElem_drop_succ, List.take_append_drop]
  have hlength : ((t.take (i + 1)).reverse.length : Int) - 1 = i := by
    simp only [List.length_reverse, List.length_take]
    omega
  have hbefore := operandAt_before (t.take (i + 1)).reverse t[i + 1] (t.drop (i + 1 + 1))
  rwa [List.reverse_reverse, htext, hlength] at hbefore

theorem operandOf_take {front back : List Piece} (h : split t = front ++ back)
    (hback : back ≠ []) :
    operandOf (t.take (width front)) = (operand front.reverse).map fun ps => join ps.reverse := by
  have hfront : bare escapeMark ∉ front := complete_of_proper_append (h ▸ proper_split t) hback
  rw [operandOf, take_width h, split_join_of_complete hfront]

/-- No operand ends between an escape marker and its character. -/
theorem operandOf_take_inside {front back : List Piece} {c : Char}
    (h : split t = front ++ escaped c :: back) :
    ∃ f, operandOf (t.take (width front + 1)) = .error f := by
  have hfront : bare escapeMark ∉ front :=
    complete_of_proper_append (h ▸ proper_split t) (List.cons_ne_nil _ _)
  have htake : t.take (width front + 1) = join front ++ [escapeMark] := by
    rw [← join_split t, h, join_append, ← length_join, List.take_length_add_append]
    rfl
  rw [operandOf, htake, split_join_append hfront, List.reverse_append]
  exact ⟨_, rfl⟩

theorem IsOperandSlice.operandAt_eq {first i : Nat} (h : IsOperandSlice t first i)
    (hi : i + 1 < t.length) : operandAt t i = .ok (t.extract first (i + 1)) := by
  obtain ⟨front, qs, back, hsplit, hqs, rfl, hlast⟩ := h
  have hback : back ≠ [] := by
    rintro rfl
    rw [← join_split t, length_join, hsplit, List.append_nil, ← hlast] at hi
    exact lt_irrefl _ hi
  have hcomplete : bare escapeMark ∉ front ++ qs :=
    complete_of_proper_append (hsplit ▸ proper_split t) hback
  have hinside : bare escapeMark ∉ qs := fun hmem => hcomplete (List.mem_append.2 (.inr hmem))
  have hslice : t.extract (width front) (i + 1) = join qs := by
    rw [List.extract_eq_take_drop, ← List.drop_take, hlast, take_width hsplit, join_append]
    exact List.drop_left' (length_join front)
  have hoperand := operandOf_take hsplit hback
  rw [← hlast, operand_of_isStarred hqs hinside] at hoperand
  rw [operandAt_of_lt hi, hoperand, hslice]
  show Except.ok (join qs.reverse.reverse) = _
  rw [List.reverse_reverse]

/-- Two slices that are found start at the same index. -/
theorem IsOperandSlice.first_eq {first other i : Nat} (h : IsOperandSlice t first i)
    (hother : IsOperandSlice t other i) (hi : i + 1 < t.length) : other = first := by
  have hle : ∀ {k}, IsOperandSlice t k i → k ≤ i + 1 := by
    rintro k ⟨front, qs, back, _, _, rfl, hlast⟩
    rw [hlast, width_append]
    exact Nat.le_add_right _ _
  have hlength : ∀ {k}, IsOperandSlice t k i → (t.extract k (i + 1)).length = i + 1 - k := by
    intro k hk
    have hkle := hle hk
    rw [List.extract_eq_take_drop, List.length_take, List.length_drop]
    omega
  have hfound := Except.ok.inj ((h.operandAt_eq hi).symm.trans (hother.operandAt_eq hi))
  have hlengths := congrArg List.length hfound
  rw [hlength h, hlength hother] at hlengths
  have hfirst := hle h
  have hsecond := hle hother
  omega

/-- What is found is a slice. -/
theorem exists_slice_of_operandOf {i : Nat} {part : Text} (hi : i + 1 < t.length)
    (h : operandOf (t.take (i + 1)) = .ok part) : ∃ first, IsOperandSlice t first i := by
  have hwidth : width (split t) = t.length := by rw [← length_join, join_split]
  rcases exists_width_or_inside (hwidth ▸ hi.le) with ⟨front, back, hsplit, hk⟩ |
    ⟨front, c, back, hsplit, hk⟩
  -- either a piece ends at the index, or an escape marker stands there
  · have hback : back ≠ [] := by
      rintro rfl
      rw [hsplit, List.append_nil] at hwidth
      omega
    rw [hk, operandOf_take hsplit hback] at h
    cases hfound : operand front.reverse with
    | error f =>
      rw [hfound] at h
      cases h
    | ok found =>
      obtain ⟨before, qs, rfl, rfl, hqs⟩ := exists_of_operand_reverse hfound
      exact ⟨_, before, qs, back, hsplit, hqs, rfl, hk⟩
  · obtain ⟨f, hf⟩ := operandOf_take_inside hsplit
    rw [hk, hf] at h
    cases h

/-- Looking up an operand finds the slice of the text that ends at the index and is one; there is one
such slice at most.  Without any the search fails, and a missing operand or an unbalanced parenthesis
is reported. -/
theorem operandAt_eq_slice (t : Text) (i : Nat) (hi : i + 1 < t.length) :
    (∀ first, IsOperandSlice t first i →
      operandAt t i = .ok (t.extract first (i + 1)) ∧
        ∀ other, IsOperandSlice t other i → other = first) ∧
      ((¬ ∃ first, IsOperandSlice t first i) →
        ∃ e, operandAt t i = .error (.pattern e) ∧
          e.fault.kind ∈ [FaultKind.emptyOperandStack, .unbalancedParentheses]) := by
  refine ⟨fun first h => ⟨h.operandAt_eq hi, fun other hother => h.first_eq hother hi⟩, ?_⟩
  intro hnone
  cases hoperand : operandOf (t.take (i + 1)) with
  | ok part => exact absurd (exists_slice_of_operandOf hi hoperand) hnone
  | error f =>
    refine ⟨f.toError t t[i + 1], ?_, ?_⟩
    · rw [operandAt_of_lt hi, hoperand]
      rfl
    · cases f with
      | missing => exact .head _
      | unmatched => exact .tail _ (.head _)

/-- A group with a star and an escaped parenthesis inside; and nothing ends behind the marker. -/
theorem operandAt_eq_slice_escapedClosing :
    IsOperandSlice "a(/))*+".toList 1 5 ∧ 5 + 1 < "a(/))*+".toList.length ∧
      operandAt "a(/))*+".toList 5 = .ok "(/))*".toList ∧
      operandAt "a(/))*+".toList 2 =
        .error (.pattern (.atIndex (.noOperand ')') "a(/))*+".toList 3)) := by
  have hinside : Closes 0 [escaped ')'] := by simp [Closes]
  have hgroup : IsStarred (grouped [escaped ')'] ++ [bare '*']) := .stars (.group hinside) 1
  have hslice : IsOperandSlice "a(/))*+".toList 1 5 :=
    ⟨[bare 'a'], _, [bare '+'], by decide, hgroup, by decide, by decide⟩
  have hlength : 5 + 1 < "a(/))*+".toList.length := by decide
  exact ⟨hslice, hlength, ((operandAt_eq_slice _ 5 hlength).1 1 hslice).1, by decide⟩

end

end RegexAutomata
