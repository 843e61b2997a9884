/-
Patterns inside other patterns.

Spelling out abbreviations is local.  If a pattern can be spelled out on its own, an abbreviation in
it finds its operand without looking at what stands before the pattern, and its bounds or the end of
its range without looking at what stands behind.  So the pattern is spelled out in the same way
wherever it is written.

* `operand_spec`, `spell_append`, `replace_spec` — the operand and the replacement of an abbreviation;
* `next_spec` — one step of the reading;
* `expands_of_expand` — the whole pattern, step by step.
-/
import RegexAutomata.Proofs.Pattern.Expansion

namespace RegexAutomata

open Piece Shorthand

/-! ### Operands -/

/-- A piece ends the search for the start of a group, or the search goes on before it. -/
theorem groupBack_cons (depth : Nat) (p : Piece) :
    (∀ ps, groupBack depth (p :: ps) = some [p]) ∨
      ∃ d, ∀ ps, groupBack depth (p :: ps) = (groupBack d ps).map (p :: ·) := by
  by_cases hclosing : p = bare ')'
  · subst hclosing
    exact .inr ⟨depth + 1, groupBack_closing depth⟩
  by_cases hopening : p = bare '('
  · subst hopening
    cases depth with
    | zero => exact .inl fun ps => by rw [groupBack, if_neg (by decide), if_pos rfl]
    | succ d => exact .inr ⟨d, groupBack_opening d⟩
  · refine .inr ⟨depth, fun ps => ?_⟩
    rw [groupBack.eq_def]
    show (if p = bare ')' then _ else if p = bare '(' then _ else _) = _
    rw [if_neg hclosing, if_neg hopening]

/-- A group that was found is the start of what was searched, and is found whatever comes after. -/
theorem groupBack_spec {depth : Nat} {ps found : List Piece}
    (h : groupBack depth ps = some found) :
    (∃ rest, ps = found ++ rest) ∧ ∀ rs, groupBack depth (ps ++ rs) = some found := by
  induction ps generalizing depth found with
  | nil => cases h
  | cons p ps ih =>
    rcases groupBack_cons depth p with hend | ⟨d, hon⟩
    · rw [hend] at h
      cases h
      exact ⟨⟨ps, rfl⟩, fun rs => hend _⟩
    · rw [hon] at h
      obtain ⟨inner, hinner, rfl⟩ := Option.map_eq_some_iff.1 h
      obtain ⟨⟨rest, rfl⟩, hmore⟩ := ih hinner
      refine ⟨⟨rest, rfl⟩, fun rs => ?_⟩
      rw [List.cons_append, hon, hmore]
      rfl

/-- And so is an operand. -/
theorem operand_spec {ps found : List Piece} (h : operand ps = .ok found) :
    (∃ rest, ps = found ++ rest) ∧ ∀ rs, operand (ps ++ rs) = .ok found := by
  simp only [operand_eq_ok_iff] at h ⊢
  induction h with
  | plain hop hsh he ps => exact ⟨⟨ps, rfl⟩, fun rs => .plain hop hsh he (ps ++ rs)⟩
  | escaped c ps => exact ⟨⟨ps, rfl⟩, fun rs => .escaped c (ps ++ rs)⟩
  | group h =>
    obtain ⟨⟨rest, rfl⟩, hmore⟩ := groupBack_spec h
    exact ⟨⟨rest, rfl⟩, fun rs => .group (hmore rs)⟩
  | star _ ih =>
    obtain ⟨⟨rest, rfl⟩, hmore⟩ := ih
    exact ⟨⟨rest, rfl⟩, fun rs => .star (hmore rs)⟩

/-- The operand at the end of a text is made of its last pieces, whatever stands before the text. -/
theorem operandOf_spec {ds : List Piece} (hds : bare escapeMark ∉ ds) {part : Text}
    (h : operandOf (join ds) = .ok part) :
    ∃ front qs, ds = front ++ qs ∧ part = join qs ∧
      ∀ ps, bare escapeMark ∉ ps → operandOf (join (ps ++ ds)) = .ok part := by
  obtain ⟨found, hfound, rfl⟩ := (operandOf_join_eq_ok_iff hds).1 h
  obtain ⟨⟨rest, hrest⟩, hmore⟩ := operand_spec hfound
  refine ⟨rest.reverse, found.reverse, ?_, rfl, fun ps hps => ?_⟩
  · rw [← List.reverse_append, ← hrest, List.reverse_reverse]
  · have hcomplete : bare escapeMark ∉ ps ++ ds := fun h => (List.mem_append.1 h).elim hps hds
    refine (operandOf_join_eq_ok_iff hcomplete).2 ⟨found, ?_, rfl⟩
    rw [List.reverse_append]
    exact hmore ps.reverse

/-! ### Replacements -/

section

variable {p : Char → Bool} {t r : Text} {c : Char}

theorem dropWhile_append_of_cons (h : t.dropWhile p = c :: r) (rest : Text) :
    (t ++ rest).dropWhile p = c :: (r ++ rest) := by
  rw [List.dropWhile_append, h]
  rfl

theorem takeWhile_append_of_cons (h : t.dropWhile p = c :: r) (rest : Text) :
    (t ++ rest).takeWhile p = t.takeWhile p := by
  have hsplit : (t.takeWhile p).length + (c :: r).length = t.length := by
    rw [← h, ← List.length_append, List.takeWhile_append_dropWhile]
  rw [List.length_cons] at hsplit
  rw [List.takeWhile_append, if_neg (by omega)]

/-- A bound that something follows is read without a look at what comes later. -/
theorem readBound_append_of_cons {bound : Option Nat} (h : Bounds.readBound t = (bound, c :: r))
    (rest : Text) : Bounds.readBound (t ++ rest) = (bound, c :: (r ++ rest)) := by
  obtain ⟨hbound, hrest⟩ := Prod.mk.inj h
  -- neither the blanks nor the digits reach the end
  cases hdigits : (dropBlanks t).dropWhile Bounds.isDigit with
  | nil =>
    rw [hdigits] at hrest
    cases hrest
  | cons d ds =>
    cases hblanks : dropBlanks t with
    | nil =>
      rw [hblanks] at hdigits
      cases hdigits
    | cons e es =>
      have hdrop : dropBlanks (t ++ rest) = dropBlanks t ++ rest := by
        rw [hblanks]
        exact dropWhile_append_of_cons hblanks rest
      have hleave : (dropBlanks t ++ rest).dropWhile Bounds.isDigit = d :: ds ++ rest :=
        dropWhile_append_of_cons hdigits rest
      have hafter : dropBlanks (d :: ds ++ rest) = c :: (r ++ rest) := by
        rw [hdigits] at hrest
        exact dropWhile_append_of_cons hrest rest
      simp only [Bounds.readBound, hdrop, takeWhile_append_of_cons hdigits rest, hleave, hafter,
        hbound]

theorem parse?_append {b : Bounds} (h : Bounds.parse? t = some (b, r)) (rest : Text) :
    Bounds.parse? (t ++ rest) = some (b, r ++ rest) := by
  unfold Bounds.parse? at h
  split at h
  · split at h
    · rename_i hlower
      split at h
      · rename_i hupper
        cases h
        have hlower := readBound_append_of_cons hlower rest
        have hupper := readBound_append_of_cons hupper rest
        simp only [List.cons_append, Bounds.parse?, hlower, hupper]
      · cases h
    · cases h
  · cases h

/-- The end of a range is a literal or an escaped character. -/
theorem upperEndpoint_cases (h : upperEndpoint t = some (c, r)) :
    t = escapeMark :: c :: r ∨ t = c :: r ∧ isReserved c = false := by
  cases t with
  | nil => cases h
  | cons d t =>
    unfold upperEndpoint at h
    by_cases hescape : d = escapeMark
    · simp only [if_pos hescape] at h
      cases t with
      | nil => cases h
      | cons e t =>
        cases h
        exact .inl (by rw [hescape])
    · simp only [if_neg hescape] at h
      split at h
      · cases h
      · rename_i hreserved
        cases h
        exact .inr ⟨rfl, Bool.eq_false_iff.2 hreserved⟩

theorem upperEndpoint_append (h : upperEndpoint t = some (c, r)) (rest : Text) :
    upperEndpoint (t ++ rest) = some (c, r ++ rest) := by
  rcases upperEndpoint_cases h with rfl | ⟨rfl, hreserved⟩
  · rfl
  · have hescape : c ≠ escapeMark := by
      rintro rfl
      cases hreserved
    unfold upperEndpoint
    simp only [List.cons_append, if_neg hescape, hreserved, Bool.false_eq_true, if_false]

end

section

variable {a : Alphabet} {part after replacement left : Text} {c : Char}

/-- All replacements that there are. -/
theorem spell_cases (h : spell a part c after = .ok (replacement, left)) :
    (c = '+' ∧ replacement = oneOrMore part ∧ left = after) ∨
      (c = '?' ∧ replacement = atMostOnce part ∧ left = after) ∨
      (c = '-' ∧ ∃ low high, lowerEndpoint part = some low ∧
        upperEndpoint after = some (high, left) ∧ ¬ high < low ∧
        replacement = oneBetween a low high) ∨
      (c ≠ '+' ∧ c ≠ '?' ∧ c ≠ '-' ∧ ∃ b, Bounds.parse? (c :: after) = some (b, left) ∧
        (∀ m ∈ b.lower, ∀ n ∈ b.upper, ¬ n < m) ∧ replacement = repeated part b) := by
  unfold spell at h
  split at h
  · rename_i hc
    cases h
    exact .inl ⟨hc, rfl, rfl⟩
  rename_i hplus
  split at h
  · rename_i hc
    cases h
    exact .inr (.inl ⟨hc, rfl, rfl⟩)
  rename_i hquestion
  split at h
  · rename_i hc
    refine .inr (.inr (.inl ⟨hc, ?_⟩))
    split at h
    · cases h
    · rename_i low hlow
      split at h
      · cases h
      · rename_i high rest hhigh
        split at h
        · cases h
        · rename_i hle
          cases h
          exact ⟨low, high, hlow, hhigh, hle, rfl⟩
  · rename_i hdash
    refine .inr (.inr (.inr ⟨hplus, hquestion, hdash, ?_⟩))
    split at h
    · cases h
    · rename_i b rest hparse
      split at h
      · rename_i m n hlower hupper
        split at h
        · cases h
        · rename_i hle
          cases h
          refine ⟨b, hparse, fun m' hm n' hn => ?_, rfl⟩
          cases hlower.symm.trans hm
          cases hupper.symm.trans hn
          exact hle
      · rename_i hbounds
        cases h
        exact ⟨b, hparse, fun m hm n hn => absurd hn (hbounds m n hm), rfl⟩

theorem spell_append (h : spell a part c after = .ok (replacement, left)) (rest : Text) :
    spell a part c (after ++ rest) = .ok (replacement, left ++ rest) := by
  rcases spell_cases h with ⟨rfl, rfl, rfl⟩ | ⟨rfl, rfl, rfl⟩ |
    ⟨rfl, low, high, hlow, hhigh, hle, rfl⟩ | ⟨hplus, hquestion, hdash, b, hparse, hle, rfl⟩
  · rw [spell, if_pos rfl]
  · rw [spell, if_neg (by decide), if_pos rfl]
  · rw [spell, if_neg (by decide), if_neg (by decide), if_pos rfl, hlow,
      upperEndpoint_append hhigh]
    exact if_neg hle
  · have hmore : Bounds.parse? (c :: (after ++ rest)) = some (b, left ++ rest) :=
      parse?_append hparse rest
    rw [spell, if_neg hplus, if_neg hquestion, if_neg hdash, hmore]
    cases hlower : b.lower with
    | none => simp only [hlower]
    | some m =>
      cases hupper : b.upper with
      | none => simp only [hlower, hupper]
      | some n => simp only [hlower, hupper, if_neg (hle m hlower n hupper)]

/-- Each replacement is a group. -/
theorem getLast?_spell (h : spell a part c after = .ok (replacement, left)) :
    replacement.getLast? = some ')' := by
  have halternatives : ∀ options, (Shorthand.alternatives options).getLast? = some ')' :=
    fun _ => List.getLast?_concat
  have hstar : ∀ t : Text, (t ++ ['*', ')']).getLast? = some ')' := by
    intro t
    rw [List.getLast?_append]
    rfl
  rcases spell_cases h with ⟨_, rfl, _⟩ | ⟨_, rfl, _⟩ | ⟨_, _, _, _, _, _, rfl⟩ |
    ⟨_, _, _, b, _, _, rfl⟩
  · exact hstar _
  · exact halternatives _
  · exact halternatives _
  · unfold Shorthand.repeated
    cases b.upper with
    | none => exact hstar _
    | some upper => exact halternatives _

end

/-- Only the last character of a text can be an escape marker without its character. -/
theorem complete_split {t : Text} (h : t.getLast? ≠ some escapeMark) :
    bare escapeMark ∉ split t := by
  fun_induction split t with
  | case1 => exact List.not_mem_nil
  | case2 c =>
    intro hmem
    have hc : escapeMark = c := bare.inj (List.mem_singleton.1 hmem)
    exact h (congrArg some hc.symm)
  | case3 d rest ih =>
    rw [List.mem_cons, not_or]
    refine ⟨fun heq => (by cases heq), ih fun hlast => h ?_⟩
    cases rest with
    | nil => cases hlast
    | cons e rest => exact hlast
  | case4 c d rest hc ih =>
    rw [List.mem_cons, not_or]
    exact ⟨fun heq => hc (bare.inj heq).symm, ih h⟩

/-! ### Steps -/

section

variable {a : Alphabet} {ds : List Piece} {c : Char} {after done left t u : Text}

/-- An abbreviation makes pieces out of the last pieces before it, whatever stands before those and
after it. -/
theorem replace_spec (hds : bare escapeMark ∉ ds)
    (h : replace a (join ds).reverse c after = .ok (done, left)) :
    ∃ es, bare escapeMark ∉ es ∧ done = (join es).reverse ∧
      ∀ ps, bare escapeMark ∉ ps → ∀ rest,
        replace a (join (ps ++ ds)).reverse c (after ++ rest) =
          .ok ((join (ps ++ es)).reverse, left ++ rest) := by
  obtain ⟨part, replacement, hpart, hspell, rfl⟩ := replace_eq_ok_iff.1 h
  rw [List.reverse_reverse] at hpart
  obtain ⟨front, qs, rfl, rfl, hmore⟩ := operandOf_spec hds hpart
  have hfront : bare escapeMark ∉ front := fun h => hds (List.mem_append.2 (.inl h))
  have hlast : replacement.getLast? ≠ some escapeMark := by
    rw [getLast?_spell hspell]
    decide
  -- the operand makes way for the replacement
  have hdone : ∀ ps, replacement.reverse ++ (join (ps ++ qs)).reverse.drop (join qs).length =
      (join (ps ++ split replacement)).reverse := by
    intro ps
    have hdrop := drop_operand ps qs (split replacement)
    rwa [join_split] at hdrop
  refine ⟨front ++ split replacement, ?_, hdone front, fun ps hps rest => ?_⟩
  · exact fun h => (List.mem_append.1 h).elim hfront (complete_split hlast)
  · refine replace_eq_ok_iff.2 ⟨join qs, replacement, ?_, spell_append hspell rest, ?_⟩
    · rw [List.reverse_reverse]
      exact hmore ps hps
    · rw [← List.append_assoc, ← List.append_assoc, hdone]

/-- A step makes pieces out of pieces, and does so in any context. -/
theorem next_spec (hds : bare escapeMark ∉ ds)
    (h : next a (join ds).reverse c after = .ok (done, left)) :
    ∃ es, bare escapeMark ∉ es ∧ done = (join es).reverse ∧
      ∀ ps, bare escapeMark ∉ ps → ∀ rest,
        next a (join (ps ++ ds)).reverse c (after ++ rest) =
          .ok ((join (ps ++ es)).reverse, left ++ rest) := by
  simp only [next_eq_ok_iff] at h ⊢
  cases h with
  | escape d =>
    have hpair : ∀ ps, ')' :: d :: escapeMark :: '(' :: (join ps).reverse =
        (join (ps ++ grouped [escaped d])).reverse := fun ps => by simp [grouped, text]
    refine ⟨ds ++ grouped [escaped d], ?_, hpair ds, fun ps _ rest => ?_⟩
    · simpa [grouped, escapeMark] using hds
    · rw [← List.append_assoc, ← hpair]
      exact .escape d (left ++ rest)
  | untouched hc =>
    have hbare : ∀ ps, c :: (join ps).reverse = (join (ps ++ [bare c])).reverse :=
      fun ps => by simp [text]
    refine ⟨ds ++ [bare c], ?_, hbare ds, fun ps _ rest => ?_⟩
    · simpa using ⟨hds, hc.1.symm⟩
    · rw [← List.append_assoc, ← hbare]
      exact .untouched hc (after ++ rest)
  | trigger hc h =>
    obtain ⟨es, hes, hdone, hmore⟩ := replace_spec hds h
    exact ⟨es, hes, hdone, fun ps hps rest => .trigger hc (hmore ps hps rest)⟩

theorem expandFrom_spec (hds : bare escapeMark ∉ ds)
    (h : expandFrom a (join ds).reverse t = .ok u) :
    ∃ qs, bare escapeMark ∉ qs ∧ u = join qs ∧
      ∀ ps, bare escapeMark ∉ ps → ∀ rest,
        expandFrom a (join (ps ++ ds)).reverse (t ++ rest) =
          expandFrom a (join (ps ++ qs)).reverse rest := by
  induction hlength : t.length using Nat.strong_induction_on generalizing t ds with
  | _ n ih =>
    cases t with
    | nil =>
      rw [expandFrom, List.reverse_reverse] at h
      cases h
      exact ⟨ds, hds, rfl, fun _ _ _ => rfl⟩
    | cons c after =>
      obtain ⟨done, left, hnext, h⟩ := exists_next_of_expandFrom h
      have hshort : left.length < n := by
        rw [← hlength]
        exact Nat.lt_succ_of_le (length_next_le hnext)
      obtain ⟨es, hes, rfl, hstep⟩ := next_spec hds hnext
      obtain ⟨qs, hqs, hu, hrun⟩ := ih left.length hshort hes h rfl
      refine ⟨qs, hqs, hu, fun ps hps rest => ?_⟩
      rw [List.cons_append, expandFrom_next (hstep ps hps rest), hrun ps hps rest]

/-- A pattern that can be spelled out on its own is spelled out in the same way anywhere. -/
theorem expands_of_expand (h : expand a t = .ok u) :
    ∃ qs, bare escapeMark ∉ qs ∧ u = join qs ∧ Expands a t qs := by
  obtain ⟨qs, hcomplete, hu, hexpands⟩ := expandFrom_spec List.not_mem_nil h
  refine ⟨qs, hcomplete, hu, fun ps rest hps => ?_⟩
  have hrun := hexpands ps hps rest
  rwa [List.append_nil] at hrun

end

end RegexAutomata
