/-
Pieces and the passes that work on them.

Splitting a text undoes joining pieces unless an escape marker stands alone inside them
(`Piece.split_join`), so a pass that splits, changes the pieces and joins them again can be read
as a pass on pieces.

* `isChain_joinOperands` — after the last pass neither the end of an operand and the start of
  another one nor two negations are adjacent;
* `split_markConcatenations` — the pieces of a pattern after both passes;
* `dropDoubleNegations_canonical`, `markConcatenations_canonical` — neither pass finds anything to do
  in a canonical form.
-/
import Mathlib.Algebra.Ring.Parity
import Mathlib.Data.List.Chain
import RegexAutomata.Pattern.Canonical

namespace RegexAutomata

namespace Piece

/-! ### Splitting and joining -/

theorem split_cons {c : Char} (hc : c ≠ escapeMark) (t : Text) :
    split (c :: t) = bare c :: split t := by
  cases t with
  | nil => rfl
  | cons d t => rw [split, if_neg hc]

theorem split_escape (c : Char) (t : Text) :
    split (escapeMark :: c :: t) = escaped c :: split t := by
  rw [split, if_pos rfl]

/-- No escape marker stands alone, except at the end. -/
def Proper : List Piece → Prop
  | [] => True
  | p :: ps => (p = bare escapeMark → ps = []) ∧ Proper ps

theorem proper_split (t : Text) : Proper (split t) := by
  fun_induction split t with
  | case1 => trivial
  | case2 c => exact ⟨fun _ => rfl, trivial⟩
  | case3 d rest ih =>
    refine ⟨fun h => ?_, ih⟩
    cases h
  | case4 c d rest hc ih => exact ⟨fun h => absurd (bare.inj h) hc, ih⟩

/-- Splitting undoes joining. -/
theorem split_join {ps : List Piece} (h : Proper ps) : split (join ps) = ps := by
  induction ps with
  | nil => rfl
  | cons p ps ih =>
    obtain ⟨hp, hps⟩ := h
    rw [join_cons]
    cases p with
    | escaped c =>
      show split (escapeMark :: c :: join ps) = _
      rw [split_escape, ih hps]
    | bare c =>
      show split (c :: join ps) = _
      by_cases hc : c = escapeMark
      · rw [hp (by rw [hc]), join_nil]
        rfl
      · rw [split_cons hc, ih hps]

theorem endsOperand_bare {c : Char} (hc : isOperator c = false) :
    (bare c).endsOperand = true := by
  simp [endsOperand, hc]

theorem startsOperand_bare {c : Char} (hc : isOperator c = false) :
    (bare c).startsOperand = true := by
  simp [startsOperand, hc]

end Piece

open Piece

/-! ### Negations -/

theorem cancelNegations_cons {p : Piece} (hp : p ≠ bare '!') (ps : List Piece) :
    cancelNegations (p :: ps) = p :: cancelNegations ps := by
  cases ps with
  | nil => rfl
  | cons q ps => rw [cancelNegations, if_neg fun h => hp h.1]

theorem cancelNegations_pair (ps : List Piece) :
    cancelNegations (bare '!' :: bare '!' :: ps) = cancelNegations ps := by
  rw [cancelNegations, if_pos ⟨rfl, rfl⟩]

theorem cancelNegations_single {p : Piece} (hp : p ≠ bare '!') (ps : List Piece) :
    cancelNegations (bare '!' :: p :: ps) = bare '!' :: cancelNegations (p :: ps) := by
  rw [cancelNegations, if_neg fun h => hp h.2]

theorem cancelNegations_append_cons {q : Piece} (hq : q ≠ bare '!') (ps qs : List Piece) :
    cancelNegations (ps ++ q :: qs) = cancelNegations ps ++ q :: cancelNegations qs := by
  fun_induction cancelNegations ps with
  | case1 => exact cancelNegations_cons hq qs
  | case2 p =>
    -- a negation that stands last meets no other one
    by_cases hp : p = bare '!'
    · subst hp
      show cancelNegations (bare '!' :: q :: qs) = bare '!' :: q :: cancelNegations qs
      rw [cancelNegations_single hq, cancelNegations_cons hq]
    · show cancelNegations (p :: q :: qs) = p :: q :: cancelNegations qs
      rw [cancelNegations_cons hp, cancelNegations_cons hq]
  | case3 p p' rest hpp ih =>
    obtain ⟨rfl, rfl⟩ := hpp
    show cancelNegations (bare '!' :: bare '!' :: (rest ++ q :: qs)) = _
    rw [cancelNegations_pair, ih]
  | case4 p p' rest hpp ih =>
    show cancelNegations (p :: p' :: (rest ++ q :: qs)) = _
    rw [cancelNegations, if_neg hpp]
    exact congrArg _ ih

/-- A run of negations is as good as one of them, or none. -/
theorem cancelNegations_replicate_append (qs : List Piece) (k : Nat) :
    cancelNegations (List.replicate k (bare '!') ++ qs) =
      if Odd k then cancelNegations (bare '!' :: qs) else cancelNegations qs := by
  induction k using Nat.twoStepInduction with
  | zero => rw [if_neg (by decide)]; rfl
  | one => rw [if_pos (by decide)]; rfl
  | more k ih _ =>
    have hodd : Odd (k + 2) ↔ Odd k := by rw [Nat.odd_add_one, Nat.odd_add_one, not_not]
    show cancelNegations (bare '!' :: bare '!' :: (List.replicate k (bare '!') ++ qs)) = _
    rw [cancelNegations_pair, ih]
    simp only [hodd]

theorem proper_cancelNegations {ps : List Piece} (h : Proper ps) : Proper (cancelNegations ps) := by
  fun_induction cancelNegations ps with
  | case1 => trivial
  | case2 p => exact h
  | case3 p q rest hpq ih => exact ih h.2.2
  | case4 p q rest hpq ih =>
    refine ⟨fun hp => ?_, ih h.2⟩
    exact absurd (h.1 hp) (by simp)

/-! ### Concatenation -/

theorem proper_joinOperands {ps : List Piece} (h : Proper ps) : Proper (joinOperands ps) := by
  fun_induction joinOperands ps with
  | case1 => trivial
  | case2 p => exact h
  | case3 p q rest hpq ih =>
    refine ⟨fun hp => absurd (h.1 hp) (by simp), fun hq => ?_, ih h.2⟩
    exact absurd (bare.inj hq) (by decide)
  | case4 p q rest hpq ih => exact ⟨fun hp => absurd (h.1 hp) (by simp), ih h.2⟩

/-- Two pieces may be adjacent in a canonical pattern: no operand starts right behind the end of
another one, and no negation behind a negation. -/
def Adjacent (p q : Piece) : Prop :=
  ¬(p.endsOperand = true ∧ q.startsOperand = true) ∧ ¬(p = bare '!' ∧ q = bare '!')

theorem isChain_cancelNegations (ps : List Piece) :
    (cancelNegations ps).IsChain fun p q => ¬(p = bare '!' ∧ q = bare '!') := by
  fun_induction cancelNegations ps with
  | case1 => exact .nil
  | case2 p => exact .singleton p
  | case3 p q rest hpq ih => exact ih
  | case4 p q rest hpq ih =>
    by_cases hp : p = bare '!'
    · have hq : q ≠ bare '!' := fun hq => hpq ⟨hp, hq⟩
      rw [cancelNegations_cons hq] at ih ⊢
      exact .cons_cons (fun h => hq h.2) ih
    · exact List.isChain_cons.2 ⟨fun _ _ h => hp h.1, ih⟩

theorem joinOperands_cons (p : Piece) (ps : List Piece) :
    ∃ qs, joinOperands (p :: ps) = p :: qs := by
  cases ps with
  | nil => exact ⟨[], rfl⟩
  | cons q ps =>
    rw [joinOperands]
    split
    · exact ⟨_, rfl⟩
    · exact ⟨_, rfl⟩

theorem isChain_joinOperands {ps : List Piece}
    (h : ps.IsChain fun p q => ¬(p = bare '!' ∧ q = bare '!')) :
    (joinOperands ps).IsChain Adjacent := by
  fun_induction joinOperands ps with
  | case1 => exact .nil
  | case2 p => exact .singleton p
  | case3 p q rest hpq ih =>
    obtain ⟨hne, hrest⟩ := List.isChain_cons_cons.1 h
    obtain ⟨qs, hqs⟩ := joinOperands_cons q rest
    have ih := ih hrest
    rw [hqs] at ih ⊢
    -- `&` neither starts nor ends an operand
    exact .cons_cons ⟨fun h => absurd h.2 (by decide), fun h => absurd h.2 (by decide)⟩
      (.cons_cons ⟨fun h => absurd h.1 (by decide), fun h => absurd h.1 (by decide)⟩ ih)
  | case4 p q rest hpq ih =>
    obtain ⟨hne, hrest⟩ := List.isChain_cons_cons.1 h
    obtain ⟨qs, hqs⟩ := joinOperands_cons q rest
    have ih := ih hrest
    rw [hqs] at ih ⊢
    exact .cons_cons ⟨by simpa using hpq, hne⟩ ih

/-- There are no negations to drop where no two of them are adjacent. -/
theorem cancelNegations_eq_self {ps : List Piece} (h : ps.IsChain Adjacent) :
    cancelNegations ps = ps := by
  fun_induction cancelNegations ps with
  | case1 => rfl
  | case2 p => rfl
  | case3 p q rest hpq ih => exact absurd hpq (List.isChain_cons_cons.1 h).1.2
  | case4 p q rest hpq ih => rw [ih (List.isChain_cons_cons.1 h).2]

/-- There is nothing to put between pieces of which none starts an operand behind another one. -/
theorem joinOperands_eq_self {ps : List Piece} (h : ps.IsChain Adjacent) :
    joinOperands ps = ps := by
  fun_induction joinOperands ps with
  | case1 => rfl
  | case2 p => rfl
  | case3 p q rest hpq ih =>
    exact absurd (by simpa using hpq) (List.isChain_cons_cons.1 h).1.1
  | case4 p q rest hpq ih => rw [ih (List.isChain_cons_cons.1 h).2]

/-- What is put between two pieces. -/
def separator (p q : Piece) : List Piece :=
  if p.endsOperand && q.startsOperand then [bare '&'] else []

theorem joinOperands_cons_cons (p q : Piece) (ps : List Piece) :
    joinOperands (p :: q :: ps) = p :: (separator p q ++ joinOperands (q :: ps)) := by
  rw [joinOperands, separator]
  split
  · rfl
  · rfl

theorem joinOperands_append (ps : List Piece) (p q : Piece) (qs : List Piece) :
    joinOperands (ps ++ p :: q :: qs) =
      joinOperands (ps ++ [p]) ++ (separator p q ++ joinOperands (q :: qs)) := by
  induction ps with
  | nil => exact joinOperands_cons_cons p q qs
  | cons r ps ih =>
    cases ps with
    | nil =>
      show joinOperands (r :: p :: q :: qs) = joinOperands (r :: p :: []) ++ _
      rw [joinOperands_cons_cons r p, joinOperands_cons_cons r p, List.cons_append,
        List.append_assoc]
      exact congrArg (fun ts => r :: (separator r p ++ ts)) ih
    | cons s ps =>
      show joinOperands (r :: s :: (ps ++ p :: q :: qs)) = joinOperands (r :: s :: (ps ++ [p])) ++ _
      rw [joinOperands_cons_cons r s, joinOperands_cons_cons r s, List.cons_append,
        List.append_assoc]
      exact congrArg (fun ts => r :: (separator r s ++ ts)) ih

/-! ### Both passes -/

theorem split_dropDoubleNegations (t : Text) :
    split (dropDoubleNegations t) = cancelNegations (split t) :=
  split_join (proper_cancelNegations (proper_split t))

theorem split_markConcatenations (t : Text) :
    split (markConcatenations (dropDoubleNegations t)) =
      joinOperands (cancelNegations (split t)) := by
  unfold markConcatenations
  rw [split_dropDoubleNegations]
  exact split_join (proper_joinOperands (proper_cancelNegations (proper_split t)))

theorem isChain_split_canonical {a : Alphabet} {p c : Text} (h : canonical a p = .ok c) :
    (split c).IsChain Adjacent := by
  unfold canonical at h
  split at h
  · cases h
    exact .singleton _
  · cases hu : Shorthand.expand a p with
    | error e =>
      rw [hu] at h
      cases h
    | ok u =>
      rw [hu] at h
      cases h
      rw [split_markConcatenations]
      exact isChain_joinOperands (isChain_cancelNegations _)

theorem dropDoubleNegations_canonical {a : Alphabet} {p c : Text} (h : canonical a p = .ok c) :
    dropDoubleNegations c = c := by
  rw [dropDoubleNegations, cancelNegations_eq_self (isChain_split_canonical h), join_split]

theorem markConcatenations_canonical {a : Alphabet} {p c : Text} (h : canonical a p = .ok c) :
    markConcatenations c = c := by
  rw [markConcatenations, joinOperands_eq_self (isChain_split_canonical h), join_split]

end RegexAutomata
