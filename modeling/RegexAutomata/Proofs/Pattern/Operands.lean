/-
Pieces that stand on their own.

The parentheses of some pieces are `Nested` if looking for the start of a group backwards passes
over all of them, as it does if each of them has its partner (`Closes`).  Pieces that are nested and
in which no escape marker lacks its character are `SelfContained`; they can be put into a pattern
without a change to what surrounds them.

* `IsOperand` — the pieces to which an abbreviation behind them applies;
* `operand_eq_ok_iff` — what is found at the end of some pieces, by cases;
* `operandOf_join_append` — these pieces are found, whatever stands before them.
-/
import RegexAutomata.Pattern.Operand
import RegexAutomata.Proofs.Pattern.Pieces

namespace RegexAutomata

open Piece

/-- Pieces in parentheses. -/
def Piece.grouped (qs : List Piece) : List Piece := bare '(' :: qs ++ [bare ')']

theorem reverse_grouped (qs : List Piece) :
    (grouped qs).reverse = bare ')' :: (qs.reverse ++ [bare '(']) := by
  simp [grouped]

/-! ### Nested parentheses -/

/-- The search for the start of a group passes over these pieces. -/
def Nested (qs : List Piece) : Prop :=
  ∀ depth rest, groupBack depth (qs.reverse ++ rest) =
    (groupBack depth rest).map (qs.reverse ++ ·)

section

variable {p : Piece} {ps qs : List Piece}

theorem groupBack_closing (depth : Nat) (ps : List Piece) :
    groupBack depth (bare ')' :: ps) = (groupBack (depth + 1) ps).map (bare ')' :: ·) := by
  rw [groupBack.eq_def]
  exact if_pos rfl

theorem groupBack_opening (depth : Nat) (ps : List Piece) :
    groupBack (depth + 1) (bare '(' :: ps) = (groupBack depth ps).map (bare '(' :: ·) := by
  rw [groupBack, if_neg (by decide), if_pos rfl]

theorem nested_nil : Nested [] := by
  intro depth rest
  exact Option.map_id'.symm

theorem Nested.append (hps : Nested ps) (hqs : Nested qs) : Nested (ps ++ qs) := by
  intro depth rest
  rw [List.reverse_append, List.append_assoc, hqs, hps, Option.map_map]
  congr 1
  funext found
  exact (List.append_assoc ..).symm

theorem nested_singleton (ho : p ≠ bare '(') (hc : p ≠ bare ')') : Nested [p] := by
  intro depth rest
  show groupBack depth (p :: rest) = _
  rw [groupBack.eq_def]
  show (if p = bare ')' then _ else if p = bare '(' then _ else _) = _
  rw [if_neg hc, if_neg ho]
  rfl

theorem Nested.group (hqs : Nested qs) : Nested (grouped qs) := by
  intro depth rest
  rw [reverse_grouped]
  show groupBack depth (bare ')' :: (qs.reverse ++ [bare '('] ++ rest)) = _
  rw [groupBack_closing, List.append_assoc, hqs]
  show ((groupBack (depth + 1) (bare '(' :: rest)).map _).map _ = _
  rw [groupBack_opening, Option.map_map, Option.map_map]
  congr 1
  funext found
  simp

/-- The search passes over what is inside a group and stops at the partner. -/
theorem Nested.groupBack (hqs : Nested qs) (rest : List Piece) :
    groupBack 0 (qs.reverse ++ bare '(' :: rest) = some (qs.reverse ++ [bare '(']) := by
  rw [hqs, RegexAutomata.groupBack, if_neg (by decide), if_pos rfl]
  rfl

end

/-! ### Balanced parentheses -/

/-- The pieces close all their parentheses and so many more. -/
def Closes : Nat → List Piece → Prop
  | d, [] => d = 0
  | d, p :: ps =>
    if p = bare '(' then Closes (d + 1) ps
    else if p = bare ')' then 0 < d ∧ Closes (d - 1) ps
    else Closes d ps

section

variable {p : Piece} {ps qs found : List Piece} {d : Nat}

theorem closes_cons (ho : p ≠ bare '(') (hc : p ≠ bare ')') : Closes d (p :: ps) ↔ Closes d ps := by
  rw [Closes, if_neg ho, if_neg hc]

/-- Read backwards, the pieces first open the groups that they close. -/
theorem groupBack_of_closes (h : Closes d ps) (depth : Nat) (rest : List Piece) :
    groupBack depth (ps.reverse ++ rest) =
      (groupBack (depth + d) rest).map (ps.reverse ++ ·) := by
  induction ps generalizing d rest with
  | nil =>
    obtain rfl : d = 0 := h
    exact Option.map_id'.symm
  | cons p ps ih =>
    have hreverse : (p :: ps).reverse ++ rest = ps.reverse ++ p :: rest := by simp
    have hmap : (fun found => (p :: ps).reverse ++ found) =
        fun found => ps.reverse ++ p :: found := by
      funext found
      simp
    rw [hreverse, hmap]
    by_cases hopening : p = bare '('
    · subst hopening
      have hps : Closes (d + 1) ps := h
      rw [ih hps, ← Nat.add_assoc, groupBack_opening, Option.map_map]
      rfl
    by_cases hclosing : p = bare ')'
    · subst hclosing
      obtain ⟨hd, hps⟩ : 0 < d ∧ Closes (d - 1) ps := h
      have hdepth : depth + (d - 1) + 1 = depth + d := by omega
      rw [ih hps, groupBack_closing, hdepth, Option.map_map]
      rfl
    · have hps := (closes_cons hopening hclosing).1 h
      have hpass : groupBack (depth + d) ([p] ++ rest) = _ :=
        nested_singleton hopening hclosing (depth + d) rest
      rw [ih hps]
      show (groupBack (depth + d) ([p] ++ rest)).map _ = _
      rw [hpass, Option.map_map]
      rfl

theorem Closes.nested (h : Closes 0 ps) : Nested ps :=
  fun depth rest => groupBack_of_closes h depth rest

/-- What the search has passed over and pieces that close as many groups as were open when it began
close all their parentheses together. -/
theorem inside_of_groupBack {depth : Nat} (h : groupBack depth ps = some found) :
    ∃ inside, found = inside ++ [bare '('] ∧
      ∀ qs, Closes depth qs → Closes 0 (inside.reverse ++ qs) := by
  induction ps generalizing depth found with
  | nil => cases h
  | cons p ps ih =>
    by_cases hclosing : p = bare ')'
    · subst hclosing
      rw [groupBack_closing] at h
      obtain ⟨found, hfound, rfl⟩ := Option.map_eq_some_iff.1 h
      obtain ⟨inside, rfl, hinside⟩ := ih hfound
      refine ⟨bare ')' :: inside, rfl, fun qs hqs => ?_⟩
      rw [List.reverse_cons, List.append_assoc]
      exact hinside _ ⟨Nat.succ_pos depth, hqs⟩
    by_cases hopening : p = bare '('
    · subst hopening
      cases depth with
      | zero =>
        rw [groupBack, if_neg (by decide), if_pos rfl] at h
        cases h
        exact ⟨[], rfl, fun _ hqs => hqs⟩
      | succ depth =>
        rw [groupBack_opening] at h
        obtain ⟨found, hfound, rfl⟩ := Option.map_eq_some_iff.1 h
        obtain ⟨inside, rfl, hinside⟩ := ih hfound
        refine ⟨bare '(' :: inside, rfl, fun qs hqs => ?_⟩
        rw [List.reverse_cons, List.append_assoc]
        exact hinside _ hqs
    · rw [groupBack.eq_def] at h
      simp only [if_neg hclosing, if_neg hopening] at h
      obtain ⟨found, hfound, rfl⟩ := Option.map_eq_some_iff.1 h
      obtain ⟨inside, rfl, hinside⟩ := ih hfound
      refine ⟨p :: inside, rfl, fun qs hqs => ?_⟩
      rw [List.reverse_cons, List.append_assoc]
      exact hinside _ ((closes_cons hopening hclosing).2 hqs)

/-- The search for the start of a group stops at the partner. -/
theorem closes_of_groupBack (h : groupBack 0 ps = some found) :
    ∃ qs, Closes 0 qs ∧ found = qs.reverse ++ [bare '('] := by
  obtain ⟨inside, rfl, hinside⟩ := inside_of_groupBack h
  have hcloses := hinside [] rfl
  rw [List.append_nil] at hcloses
  exact ⟨inside.reverse, hcloses, by rw [List.reverse_reverse]⟩

/-- What is inside a group is nested. -/
theorem nested_of_groupBack (h : groupBack 0 ps = some found) :
    ∃ qs, Nested qs ∧ found = qs.reverse ++ [bare '('] := by
  obtain ⟨qs, hqs, hfound⟩ := closes_of_groupBack h
  exact ⟨qs, hqs.nested, hfound⟩

end

/-! ### Self-contained pieces -/

/-- All parentheses have their partner, and all escape markers their character, among the pieces. -/
structure SelfContained (qs : List Piece) : Prop where
  nested : Nested qs
  complete : bare escapeMark ∉ qs

section

variable {ps qs : List Piece}

theorem selfContained_nil : SelfContained [] := ⟨nested_nil, List.not_mem_nil⟩

theorem SelfContained.append (hps : SelfContained ps) (hqs : SelfContained qs) :
    SelfContained (ps ++ qs) where
  nested := hps.nested.append hqs.nested
  complete h := (List.mem_append.1 h).elim hps.complete hqs.complete

theorem selfContained_escaped (c : Char) : SelfContained [escaped c] where
  nested := nested_singleton nofun nofun
  complete h := by cases List.mem_singleton.1 h

theorem selfContained_bare {c : Char} (hc : c ∉ ['(', ')', escapeMark]) :
    SelfContained [bare c] := by
  simp only [List.mem_cons, List.not_mem_nil, or_false, not_or] at hc
  obtain ⟨hopening, hclosing, hescape⟩ := hc
  refine ⟨nested_singleton (fun h => hopening (bare.inj h)) fun h => hclosing (bare.inj h), ?_⟩
  exact fun h => hescape (bare.inj (List.mem_singleton.1 h)).symm

theorem SelfContained.group (hqs : SelfContained qs) : SelfContained (grouped qs) where
  nested := hqs.nested.group
  complete h := by
    rcases List.mem_append.1 h with h | h
    · rcases List.mem_cons.1 h with h | h
      · exact absurd (bare.inj h) (by decide)
      · exact hqs.complete h
    · exact absurd (bare.inj (List.mem_singleton.1 h)) (by decide)

/-- What is behind pieces without a lone escape marker is split on its own. -/
theorem split_join_append (h : bare escapeMark ∉ ps) (t : Text) :
    split (join ps ++ t) = ps ++ split t := by
  induction ps with
  | nil => rfl
  | cons p ps ih =>
    rw [List.mem_cons, not_or] at h
    obtain ⟨hp, hps⟩ := h
    cases p with
    | escaped c =>
      show split (escapeMark :: c :: (join ps ++ t)) = _
      rw [split_escape, ih hps]
      rfl
    | bare c =>
      have hc : c ≠ escapeMark := fun hc => hp (congrArg bare hc.symm)
      show split (c :: (join ps ++ t)) = _
      rw [split_cons hc, ih hps]
      rfl

theorem split_join_of_complete (h : bare escapeMark ∉ ps) : split (join ps) = ps := by
  have happend := split_join_append h []
  rwa [List.append_nil, split, List.append_nil] at happend

theorem eq_of_join_eq (hps : bare escapeMark ∉ ps) (hqs : bare escapeMark ∉ qs)
    (h : join ps = join qs) : ps = qs := by
  rw [← split_join_of_complete hps, h, split_join_of_complete hqs]

end

/-! ### Operands -/

/-- Pieces to which an abbreviation behind them applies as a whole. -/
inductive IsOperand : List Piece → Prop
  | plain {c : Char} (hop : isOperator c = false) (hsh : isShorthand c = false)
    (he : c ≠ escapeMark) : IsOperand [bare c]
  | group {qs : List Piece} (h : SelfContained qs) : IsOperand (grouped qs)
  | star {qs : List Piece} (h : IsOperand qs) : IsOperand (qs ++ [bare '*'])

variable {ps qs : List Piece}

theorem ne_of_isOperator {c d : Char} (hc : isOperator c = false) (hd : isOperator d = true) :
    c ≠ d := by
  rintro rfl
  rw [hd] at hc
  cases hc

theorem IsOperand.selfContained (h : IsOperand qs) : SelfContained qs := by
  induction h with
  | @plain c hop _ he =>
    have hopening : c ≠ '(' := ne_of_isOperator hop rfl
    have hclosing : c ≠ ')' := ne_of_isOperator hop rfl
    exact selfContained_bare (by simp [hopening, hclosing, he])
  | group h => exact h.group
  | star _ ih => exact ih.append (selfContained_bare (by decide))

theorem IsOperand.ne_nil (h : IsOperand qs) : qs ≠ [] := by
  cases h with
  | plain | group => exact List.cons_ne_nil _ _
  | star => exact List.concat_ne_nil _ _

/-- The only operator that an operand starts with is an opening parenthesis. -/
theorem IsOperand.eq_opening (h : IsOperand qs) {c : Char} (hc : isOperator c = true)
    (hhead : qs.head? = some (bare c)) : c = '(' := by
  induction h with
  | plain hop =>
    cases hhead
    rw [hc] at hop
    cases hop
  | group =>
    cases hhead
    rfl
  | @star qs h ih =>
    rw [List.head?_append_of_ne_nil _ h.ne_nil] at hhead
    exact ih hhead

/-- What these pieces end in is found as an operand; the pieces of both are given last first. -/
inductive EndsInOperand : List Piece → List Piece → Prop
  | plain {c : Char} (hop : isOperator c = false) (hsh : isShorthand c = false)
    (he : c ≠ escapeMark) (ps : List Piece) : EndsInOperand (bare c :: ps) [bare c]
  | escaped (c : Char) (ps : List Piece) : EndsInOperand (escaped c :: ps) [escaped c]
  | group {ps group : List Piece} (h : groupBack 0 ps = some group) :
    EndsInOperand (bare ')' :: ps) (bare ')' :: group)
  | star {ps found : List Piece} (h : EndsInOperand ps found) :
    EndsInOperand (bare '*' :: ps) (bare '*' :: found)

theorem operand_eq_ok_iff {found : List Piece} : operand ps = .ok found ↔ EndsInOperand ps found := by
  constructor
  · intro h
    induction ps generalizing found with
    | nil => cases h
    | cons p ps ih =>
      cases p with
      | escaped c =>
        cases h
        exact .escaped c ps
      | bare c =>
        rw [operand] at h
        split at h
        · rename_i hstar
          subst hstar
          cases hinner : operand ps with
          | error f =>
            rw [hinner] at h
            cases h
          | ok inner =>
            rw [hinner] at h
            cases h
            exact .star (ih hinner)
        split at h
        · rename_i hclosing
          subst hclosing
          split at h
          · rename_i hgroup
            cases h
            exact .group hgroup
          · cases h
        split at h
        · cases h
        · rename_i hplain
          cases h
          simp only [Bool.or_eq_true, beq_iff_eq, not_or, Bool.not_eq_true] at hplain
          obtain ⟨⟨hop, hsh⟩, he⟩ := hplain
          exact .plain hop hsh he ps
  · intro h
    induction h with
    | plain hop hsh he ps =>
      rw [operand, if_neg (ne_of_isOperator hop rfl), if_neg (ne_of_isOperator hop rfl), hop, hsh,
        beq_false_of_ne he]
      rfl
    | escaped c ps => rfl
    | group h => rw [operand, if_neg (by decide), if_pos rfl, h]
    | star _ ih =>
      rw [operand, if_pos rfl, ih]
      rfl

/-- An operand is found from its end, whatever stands before it. -/
theorem operand_append (h : IsOperand qs) (ps : List Piece) :
    operand (ps ++ qs).reverse = .ok qs.reverse := by
  rw [operand_eq_ok_iff]
  induction h with
  | plain hop hsh he =>
    rw [List.reverse_append]
    exact .plain hop hsh he ps.reverse
  | @group qs h =>
    rw [List.reverse_append, reverse_grouped, List.cons_append, List.append_assoc]
    exact .group (h.nested.groupBack ps.reverse)
  | star _ ih =>
    rw [← List.append_assoc, List.reverse_concat, List.reverse_concat]
    exact .star ih

/-- The operand at the end of a text is read off the pieces of the text. -/
theorem operandOf_join_eq_ok_iff (hps : bare escapeMark ∉ ps) {part : Text} :
    operandOf (join ps) = .ok part ↔
      ∃ found, operand ps.reverse = .ok found ∧ part = join found.reverse := by
  rw [operandOf, split_join_of_complete hps]
  cases operand ps.reverse with
  | error f => exact iff_of_false nofun nofun
  | ok found =>
    constructor
    · rintro ⟨⟩
      exact ⟨found, rfl, rfl⟩
    · rintro ⟨_, ⟨⟩, rfl⟩
      rfl

theorem operandOf_join_append (hps : bare escapeMark ∉ ps) (hqs : IsOperand qs) :
    operandOf (join (ps ++ qs)) = .ok (join qs) := by
  have hcomplete : bare escapeMark ∉ ps ++ qs := fun h =>
    (List.mem_append.1 h).elim hps hqs.selfContained.complete
  rw [operandOf_join_eq_ok_iff hcomplete]
  exact ⟨qs.reverse, operand_append hqs ps, by rw [List.reverse_reverse]⟩

end RegexAutomata
