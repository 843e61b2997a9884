/-
The stages of spelling out a pattern.

At each stage a part of the pattern has been read and rewritten, and the rest is as it was written
(`Stage`).  A step reads a character, an escaped pair or an abbreviation with what belongs to it, and
may make a group out of the end of what has been rewritten.  So what has been rewritten is `Tidy`, and
it has as many open parentheses as what has been read (`Stage.Faithful`).

* `Neat`, `spell_neat` — what is put into the place of an abbreviation and its operand;
* `exists_read_of_spell` — what is read along with it;
* `next_tidy`, `Stage.Faithful.step` — one step;
* `expand_stages` — all steps, and how they end.
-/
import RegexAutomata.Proofs.Pattern.BoundsGrammar
import RegexAutomata.Proofs.Pattern.OperandLookup

namespace RegexAutomata

open Piece Shorthand

/-! ### Stages and steps -/

/-- The two parts of the text that is being processed: what has been read, as it is now, and what has
not been read. -/
structure Stage where
  scanned : Text
  rest : Text

namespace Stage

/-- One step of the reading. -/
inductive Step (a : Alphabet) : Stage → Stage → Prop
  | next {scanned done after rest : Text} {c : Char}
    (h : Shorthand.next a scanned.reverse c after = .ok (done.reverse, rest)) :
    Step a ⟨scanned, c :: after⟩ ⟨done, rest⟩

/-- The stage can be reached from the start of the reading. -/
def Reached (a : Alphabet) (t : Text) (s : Stage) : Prop :=
  Relation.ReflTransGen (Step a) ⟨[], t⟩ s

end Stage

/-- How many more parentheses are opened than closed. -/
def Piece.balance (ps : List Piece) : Int := ps.count (bare '(') - ps.count (bare ')')

/-- No trigger and no escape marker is bare, and each escaped pair has parentheses of its own. -/
structure Tidy (ps : List Piece) : Prop where
  untouched : ∀ c, bare c ∈ ps → Untouched c
  wrapped : ∀ front c back, ps = front ++ escaped c :: back →
    ∃ front' back', front = front' ++ [bare '('] ∧ back = bare ')' :: back'

/-- What is left is the end of the pattern.  What has been read of it consists of whole pieces; it has
become tidy, and its parentheses are as they were as far as their number goes. -/
structure Stage.Faithful (t : Text) (s : Stage) : Prop where
  tidy : Tidy (split s.scanned)
  read : ∃ read, t = read ++ s.rest ∧ bare escapeMark ∉ split read ∧
    balance (split s.scanned) = balance (split read)

section

variable {a : Alphabet} {ps qs rs : List Piece} {c d : Char} {t part done after left replacement : Text}

/-! ### Balance -/

theorem balance_append (ps qs : List Piece) :
    balance (ps ++ qs) = balance ps + balance qs := by
  simp only [balance, List.count_append]
  omega

theorem balance_bare (hopening : c ≠ '(') (hclosing : c ≠ ')') : balance [bare c] = 0 := by
  simp [balance, hopening, hclosing]

theorem balance_escaped (c : Char) : balance [escaped c] = 0 := by
  simp [balance]

theorem balance_grouped (qs : List Piece) : balance (grouped qs) = balance qs := by
  have hopening : balance [bare '('] = 1 := rfl
  have hclosing : balance [bare ')'] = -1 := rfl
  have hgroup : grouped qs = [bare '('] ++ qs ++ [bare ')'] := rfl
  rw [hgroup, balance_append, balance_append, hopening, hclosing]
  omega

/-- Pieces that close so many more parentheses than they open. -/
theorem balance_of_closes {n : Nat} (h : Closes n ps) : balance ps = -n := by
  induction ps generalizing n with
  | nil =>
    obtain rfl : n = 0 := h
    rfl
  | cons p ps ih =>
    show balance ([p] ++ ps) = _
    rw [balance_append]
    by_cases hopening : p = bare '('
    · subst hopening
      have hps : Closes (n + 1) ps := h
      have hone : balance [bare '('] = 1 := rfl
      rw [hone, ih hps]
      omega
    by_cases hclosing : p = bare ')'
    · subst hclosing
      obtain ⟨hn, hps⟩ : 0 < n ∧ Closes (n - 1) ps := h
      have hone : balance [bare ')'] = -1 := rfl
      rw [hone, ih hps]
      omega
    · have hzero : balance [p] = 0 := by simp [balance, hopening, hclosing]
      rw [hzero, ih ((closes_cons hopening hclosing).1 h), zero_add]

theorem IsBase.balance (h : IsBase qs) : balance qs = 0 := by
  cases h with
  | bare hop => exact balance_bare (ne_of_isOperator hop rfl) (ne_of_isOperator hop rfl)
  | escaped c => exact balance_escaped c
  | group h =>
    rw [balance_grouped, balance_of_closes h]
    rfl

theorem IsStarred.balance (h : IsStarred qs) : balance qs = 0 := by
  obtain ⟨hbase, n⟩ := h
  rw [balance_append, hbase.balance, zero_add]
  simp [Piece.balance, List.count_replicate]

/-! ### Tidy pieces -/

theorem Tidy.complete (h : Tidy ps) : bare escapeMark ∉ ps :=
  fun hmem => (h.untouched _ hmem).1 rfl

theorem tidy_bare (hc : Untouched c) : Tidy [bare c] where
  untouched d hd := by
    rw [bare.inj (List.mem_singleton.1 hd)]
    exact hc
  wrapped front d back h := by
    cases front with
    | nil => cases h
    | cons p front => simp at h

theorem Tidy.append (hps : Tidy ps) (hqs : Tidy qs) : Tidy (ps ++ qs) where
  untouched c hc := (List.mem_append.1 hc).elim (hps.untouched c) (hqs.untouched c)
  wrapped front c back h := by
    rcases List.append_eq_append_iff.1 h with ⟨ms, rfl, hms⟩ | ⟨ms, hfront, hms⟩
    · obtain ⟨front', back', rfl, rfl⟩ := hqs.wrapped ms c back hms
      exact ⟨ps ++ front', back', (List.append_assoc ..).symm, rfl⟩
    · cases ms with
      | nil =>
        -- the pair would be the first piece of the second part
        obtain ⟨front', _, hfront', _⟩ := hqs.wrapped [] c back hms.symm
        exact absurd hfront' (List.concat_ne_nil _ _).symm
      | cons m ms =>
        obtain ⟨rfl, rfl⟩ := List.cons.inj hms
        obtain ⟨front', back', hfront', rfl⟩ := hps.wrapped front c ms hfront
        exact ⟨front', back' ++ qs, hfront', rfl⟩

/-- The parts of tidy pieces are tidy if no pair with its parentheses is cut. -/
theorem Tidy.of_append (h : Tidy (ps ++ qs)) (hhead : qs.head? = some (bare c))
    (hc : c ≠ ')') : Tidy ps ∧ Tidy qs := by
  obtain ⟨rest, rfl⟩ : ∃ rest, qs = bare c :: rest := by
    cases qs with
    | nil => cases hhead
    | cons q rest => exact ⟨rest, by rw [Option.some.inj hhead]⟩
  refine ⟨⟨fun d hd => h.untouched d (List.mem_append_left _ hd), fun front d back hps => ?_⟩,
    fun d hd => h.untouched d (List.mem_append_right _ hd), fun front d back hqs => ?_⟩
  · obtain ⟨front', back', hfront, hback⟩ :=
      h.wrapped front d (back ++ bare c :: rest) (by rw [hps]; simp)
    refine ⟨front', ?_⟩
    cases back with
    | nil => exact absurd (bare.inj (List.cons.inj hback).1) hc
    | cons p back => exact ⟨back, hfront, by rw [(List.cons.inj hback).1]⟩
  · obtain ⟨front', back', hfront, hback⟩ := h.wrapped (ps ++ front) d back (by rw [hqs]; simp)
    rcases List.eq_nil_or_concat' front with rfl | ⟨inner, p, rfl⟩
    · cases hqs
    · rw [← List.append_assoc] at hfront
      obtain ⟨-, hp⟩ := List.append_inj' hfront rfl
      exact ⟨inner, back', by rw [hp], hback⟩

/-- An operand in tidy pieces is no bare pair. -/
theorem Tidy.operand (h : Tidy (ps ++ qs)) (hqs : IsStarred qs) :
    ∃ c, qs.head? = some (bare c) ∧ c ≠ ')' := by
  obtain ⟨hbase, n⟩ := hqs
  cases hbase with
  | @bare c hop => exact ⟨c, rfl, ne_of_isOperator hop rfl⟩
  | group => exact ⟨'(', rfl, by decide⟩
  | escaped c =>
    -- behind it there are only stars
    obtain ⟨_, back, _, hback⟩ := h.wrapped ps c (List.replicate n (bare '*')) rfl
    have hmem : bare ')' ∈ List.replicate n (bare '*') := by
      rw [hback]
      exact .head _
    exact absurd (bare.inj (List.eq_of_mem_replicate hmem)) (by decide)

/-! ### Replacements -/

/-- Tidy pieces that open as many parentheses as they close. -/
structure Neat (qs : List Piece) : Prop where
  tidy : Tidy qs
  balance : balance qs = 0

theorem neat_nil : Neat [] where
  tidy := ⟨fun _ hc => absurd hc List.not_mem_nil, fun _ _ _ h => by simp at h⟩
  balance := rfl

theorem neat_bare (hc : Untouched c) (hopening : c ≠ '(') (hclosing : c ≠ ')') :
    Neat [bare c] := ⟨tidy_bare hc, balance_bare hopening hclosing⟩

theorem neat_of_isReserved (hc : isReserved c = false) : Neat [bare c] := by
  refine neat_bare (untouched_of_isReserved hc) ?_ ?_
  · rintro rfl
    cases hc
  · rintro rfl
    cases hc

theorem Neat.append (hps : Neat ps) (hqs : Neat qs) : Neat (ps ++ qs) where
  tidy := hps.tidy.append hqs.tidy
  balance := by rw [balance_append, hps.balance, hqs.balance, zero_add]

theorem Neat.group (hqs : Neat qs) : Neat (grouped qs) where
  tidy := ((tidy_bare ⟨by decide, rfl⟩).append hqs.tidy).append (tidy_bare ⟨by decide, rfl⟩)
  balance := by rw [balance_grouped, hqs.balance]

/-- A pair with its parentheses. -/
theorem neat_pair (c : Char) : Neat (grouped [escaped c]) where
  tidy := by
    constructor
    · intro d hd
      have hcases : d = '(' ∨ d = ')' := by simpa [grouped] using hd
      rcases hcases with rfl | rfl
      · exact ⟨by decide, rfl⟩
      · exact ⟨by decide, rfl⟩
    · intro front d back h
      rcases front with _ | ⟨p, _ | ⟨q, _ | ⟨r, front⟩⟩⟩
      · cases h
      · cases h
        exact ⟨[], [], rfl, rfl⟩
      · cases h
      · simp [grouped] at h
  balance := by rw [balance_grouped, balance_escaped]

theorem composable_neat : Composable Neat where
  nil := neat_nil
  append := Neat.append
  mark c hc := by
    simp only [List.mem_cons, List.not_mem_nil, or_false] at hc
    rcases hc with rfl | rfl | rfl <;> exact neat_bare ⟨by decide, rfl⟩ (by decide) (by decide)

theorem neat_literal (ha : a.Lacks (operatorChars ++ shorthandChars ++ specialChars)) (c : Char) :
    Neat (literal a c) := by
  unfold Piece.literal
  by_cases hc : a.hasChar c = true
  · rw [if_pos hc]
    exact neat_of_isReserved (isReserved_of_hasChar ha hc)
  · rw [if_neg hc]
    exact neat_pair c

/-- What an abbreviation and its operand make way for. -/
theorem spell_neat (ha : a.Lacks (operatorChars ++ shorthandChars ++ specialChars))
    (hqs : Neat qs) (h : spell a (join qs) c after = .ok (replacement, left)) :
    ∃ rs, Neat rs ∧ replacement = join rs := by
  rcases spell_cases h with ⟨_, rfl, _⟩ | ⟨_, rfl, _⟩ | ⟨_, low, high, _, _, _, rfl⟩ |
    ⟨_, _, _, b, _, _, rfl⟩
  · obtain ⟨rs, hrs, heq⟩ := composable_neat.exists_expand hqs (s := .oneOrMore) nofun
    exact ⟨grouped rs, hrs.group, by rw [← heq, Suffix.join_oneOrMore]⟩
  · obtain ⟨rs, hrs, heq⟩ := composable_neat.exists_expand hqs (s := .atMostOnce) nofun
    exact ⟨grouped rs, hrs.group, by rw [← heq, Suffix.join_atMostOnce]⟩
  · have hliterals := composable_neat.literals (neat_literal ha) low high
    exact ⟨_, hliterals.group, (join_literals a low high).symm⟩
  · obtain ⟨rs, hrs, heq⟩ := composable_neat.exists_repeated hqs b
    exact ⟨grouped rs, hrs.group, by rw [← heq, join_repeated]⟩

/-! ### What is read -/

theorem split_eq_map (h : escapeMark ∉ t) : split t = t.map bare := by
  induction t with
  | nil => rfl
  | cons c t ih =>
    rw [List.mem_cons, not_or] at h
    rw [split_cons (Ne.symm h.1), ih h.2, List.map_cons]

/-- Neither brackets nor what may stand between them are parentheses or escape markers. -/
theorem Bounds.IsBrackets.not_mem {b : Bounds} (h : Bounds.IsBrackets b t)
    (hc : c ∈ ['(', ')', escapeMark]) : c ∉ t := by
  obtain ⟨hlower, hupper⟩ := h
  have hother : isBlank c = false ∧ Bounds.isDigit c = false ∧ c ∉ ['[', ',', ']'] := by
    simp only [List.mem_cons, List.not_mem_nil, or_false] at hc
    rcases hc with rfl | rfl | rfl <;> decide
  obtain ⟨hblank, hdigit, hmarks⟩ := hother
  have hl := hlower.not_mem hblank hdigit
  have hu := hupper.not_mem hblank hdigit
  simp only [List.mem_cons, List.not_mem_nil, or_false, not_or] at hmarks
  simp [hl, hu, hmarks]

/-- An abbreviation is read together with its bounds or the end of its range; there are no
parentheses in these, unless they are escaped. -/
theorem exists_read_of_spell (hc : isTrigger c = true)
    (h : spell a part c after = .ok (replacement, left)) :
    ∃ read, c :: after = read ++ left ∧ bare escapeMark ∉ split read ∧
      balance (split read) = 0 := by
  rcases spell_cases h with ⟨rfl, _, rfl⟩ | ⟨rfl, _, rfl⟩ | ⟨rfl, low, high, _, hhigh, _⟩ |
    ⟨_, _, _, b, hparse, _⟩
  · exact ⟨['+'], rfl, by decide, by decide⟩
  · exact ⟨['?'], rfl, by decide, by decide⟩
  · rcases upperEndpoint_cases hhigh with rfl | ⟨rfl, hreserved⟩
    · refine ⟨['-', escapeMark, high], rfl, by simp [split, escapeMark], ?_⟩
      simp [split, escapeMark, Piece.balance]
    · have hhigh := neat_of_isReserved hreserved
      have hsplit : split ['-', high] = [bare '-'] ++ [bare high] := split_cons (by decide) _
      refine ⟨['-', high], rfl, ?_, ?_⟩
      · rw [hsplit, List.mem_append, not_or]
        exact ⟨by decide, hhigh.tidy.complete⟩
      · rw [hsplit, balance_append, hhigh.balance]
        rfl
  · obtain ⟨u, hu, hb⟩ := Bounds.parse?_eq_some_iff.1 hparse
    have hmark : escapeMark ∉ u := hb.not_mem (by decide)
    refine ⟨u, hu, ?_, ?_⟩
    · rw [split_eq_map hmark]
      intro hmem
      obtain ⟨d, hd, heq⟩ := List.mem_map.1 hmem
      exact hmark (bare.inj heq ▸ hd)
    · have hcount : ∀ d ∈ ['(', ')'], (u.map bare).count (bare d) = 0 := by
        intro d hd
        rw [List.count_eq_zero, List.mem_map]
        rintro ⟨e, he, heq⟩
        have hd' : d ∈ ['(', ')', escapeMark] := List.mem_append_left [escapeMark] hd
        exact hb.not_mem hd' (bare.inj heq ▸ he)
      rw [split_eq_map hmark, Piece.balance, hcount '(' (.head _), hcount ')' (.tail _ (.head _))]
      rfl

/-! ### Steps -/

/-- An abbreviation and its operand, which is the end of tidy pieces, make way for neat ones. -/
theorem replace_tidy (ha : a.Lacks (operatorChars ++ shorthandChars ++ specialChars))
    (hps : Tidy ps) (h : replace a (join ps).reverse c after = .ok (done, left)) :
    ∃ qs part replacement, Tidy qs ∧ done = (join qs).reverse ∧ balance qs = balance ps ∧
      spell a part c after = .ok (replacement, left) := by
  obtain ⟨part, replacement, hpart, hspell, rfl⟩ := replace_eq_ok_iff.1 h
  rw [List.reverse_reverse, operandOf_join_eq_ok_iff hps.complete] at hpart
  obtain ⟨found, hfound, rfl⟩ := hpart
  obtain ⟨front, qs, rfl, rfl, hqs⟩ := exists_of_operand_reverse hfound
  rw [List.reverse_reverse] at hspell ⊢
  -- the operand starts neither inside a pair nor between a pair and its parentheses
  obtain ⟨d, hhead, hd⟩ := hps.operand hqs
  obtain ⟨hfront, htidy⟩ := hps.of_append hhead hd
  obtain ⟨rs, hrs, rfl⟩ := spell_neat ha ⟨htidy, hqs.balance⟩ hspell
  refine ⟨front ++ rs, _, _, hfront.append hrs.tidy, drop_operand front qs rs, ?_, hspell⟩
  rw [balance_append, balance_append, hrs.balance, hqs.balance]

/-- What a step reads consists of whole pieces, and its parentheses are found again in what the step
makes of it. -/
theorem next_tidy (ha : a.Lacks (operatorChars ++ shorthandChars ++ specialChars))
    (hps : Tidy ps) (h : next a (join ps).reverse c after = .ok (done, left)) :
    ∃ qs read, Tidy qs ∧ done = (join qs).reverse ∧ c :: after = read ++ left ∧
      bare escapeMark ∉ split read ∧ balance qs = balance ps + balance (split read) := by
  cases next_eq_ok_iff.1 h with
  | escape d =>
    have hpair := neat_pair d
    refine ⟨ps ++ grouped [escaped d], [escapeMark, d], hps.append hpair.tidy, ?_, rfl, ?_, ?_⟩
    · simp [grouped, text]
    · simp [split]
    · rw [balance_append, hpair.balance]
      exact congrArg _ (balance_escaped d).symm
  | untouched hc =>
    have hbare := tidy_bare hc
    refine ⟨ps ++ [bare c], [c], hps.append hbare, ?_, rfl, hbare.complete, ?_⟩
    · simp [text]
    · rw [balance_append]
      rfl
  | trigger htrigger h =>
    obtain ⟨qs, part, replacement, hqs, hdone, hbalance, hspell⟩ := replace_tidy ha hps h
    obtain ⟨read, hread, hcomplete, hzero⟩ := exists_read_of_spell htrigger hspell
    refine ⟨qs, read, hqs, hdone, hread, hcomplete, ?_⟩
    rw [hbalance, hzero, add_zero]

namespace Stage

variable {s s' : Stage}

theorem Faithful.step (ha : a.Lacks (operatorChars ++ shorthandChars ++ specialChars))
    (h : s.Faithful t) (hstep : Step a s s') : s'.Faithful t := by
  obtain ⟨hnext⟩ := hstep
  rename_i scanned done after rest c
  obtain ⟨before, ht, hbefore, hbalance⟩ := h.read
  rw [← join_split scanned] at hnext
  obtain ⟨qs, read, hqs, hdone, hread, hcomplete, hstep⟩ := next_tidy ha h.tidy hnext
  obtain rfl : done = join qs := List.reverse_injective hdone
  have hscanned : split (join qs) = qs := split_join_of_complete hqs.complete
  have hsplit : split (before ++ read) = split before ++ split read := by
    conv_lhs => rw [← join_split before]
    exact split_join_append hbefore read
  refine ⟨?_, before ++ read, ?_, ?_, ?_⟩
  · show Tidy (split (join qs))
    rw [hscanned]
    exact hqs
  · rw [ht, hread, List.append_assoc]
  · rw [hsplit, List.mem_append, not_or]
    exact ⟨hbefore, hcomplete⟩
  · rw [hscanned, hstep, hbalance, hsplit, balance_append]

theorem faithful_start (t : Text) : Faithful t ⟨[], t⟩ where
  tidy := neat_nil.tidy
  read := ⟨[], rfl, List.not_mem_nil, rfl⟩

theorem Reached.faithful (ha : a.Lacks (operatorChars ++ shorthandChars ++ specialChars))
    (h : Reached a t s) : s.Faithful t := by
  induction h with
  | refl => exact faithful_start t
  | tail _ hstep ih => exact ih.step ha hstep

/-- A step leaves less of the pattern. -/
theorem Step.length_lt (h : Step a s s') : s'.rest.length < s.rest.length := by
  obtain ⟨hnext⟩ := h
  exact Nat.lt_succ_of_le (length_next_le hnext)

/-- The reading stops at a stage where nothing is left, or where the next step fails. -/
theorem exists_stop (a : Alphabet) (s : Stage) :
    ∃ s', Relation.ReflTransGen (Step a) s s' ∧
      (s'.rest = [] ∧ expandFrom a s.scanned.reverse s.rest = .ok s'.scanned ∨
        ∃ c after e, s'.rest = c :: after ∧ next a s'.scanned.reverse c after = .error e ∧
          expandFrom a s.scanned.reverse s.rest = .error e) := by
  -- by induction on how much is left: a step can take several characters at once
  induction hlength : s.rest.length using Nat.strong_induction_on generalizing s with
  | _ n ih =>
    obtain ⟨scanned, rest⟩ := s
    cases rest with
    | nil =>
      refine ⟨_, .refl, .inl ⟨rfl, ?_⟩⟩
      rw [expandFrom, List.reverse_reverse]
    | cons c after =>
      cases hnext : next a scanned.reverse c after with
      | error e =>
        refine ⟨_, .refl, .inr ⟨c, after, e, rfl, hnext, ?_⟩⟩
        rw [expandFrom]
        split
        · rename_i hnext'
          cases hnext'.symm.trans hnext
          rfl
        · rename_i hnext'
          cases hnext'.symm.trans hnext
      | ok made =>
        obtain ⟨done, left⟩ := made
        have hstep : Step a ⟨scanned, c :: after⟩ ⟨done.reverse, left⟩ :=
          .next (by rwa [List.reverse_reverse])
        obtain ⟨s', hrun, hstop⟩ := ih _ (hlength ▸ hstep.length_lt) _ rfl
        rw [List.reverse_reverse] at hstop
        exact ⟨s', .head hstep hrun, by rwa [expandFrom_next hnext]⟩

end Stage

/-- At each stage of spelling out a pattern, what is left is the end of the pattern and what has been
rewritten is tidy and has the parentheses of what has been read.  A step leaves less, although the
text as a whole can grow.  So the reading ends, with a result or with the error of its last step. -/
theorem expand_stages (ha : a.Lacks (operatorChars ++ shorthandChars ++ specialChars)) (t : Text) :
    (∀ s, Stage.Reached a t s → s.Faithful t ∧
        ∀ s', Stage.Step a s s' → s'.rest.length < s.rest.length) ∧
      ∃ s, Stage.Reached a t s ∧
        (s.rest = [] ∧ expand a t = .ok s.scanned ∨
          ∃ c after e, s.rest = c :: after ∧
            Shorthand.next a s.scanned.reverse c after = .error e ∧ expand a t = .error e) :=
  ⟨fun _ hs => ⟨hs.faithful ha, fun _ hstep => hstep.length_lt⟩, Stage.exists_stop a ⟨[], t⟩⟩

/-- A repetition is read in one step, and the text grows. -/
theorem expand_stages_repetition :
    Alphabet.standard.Lacks (operatorChars ++ shorthandChars ++ specialChars) ∧
      Stage.Reached .standard "b[2,]/+".toList ⟨"(bbb*)".toList, "/+".toList⟩ ∧
      Stage.Faithful "b[2,]/+".toList ⟨"(bbb*)".toList, "/+".toList⟩ := by
  have hlacks : Alphabet.standard.Lacks (operatorChars ++ shorthandChars ++ specialChars) := by
    decide +kernel
  have hletter : Stage.Step .standard ⟨[], "b[2,]/+".toList⟩ ⟨['b'], "[2,]/+".toList⟩ := .next rfl
  have hrepetition : Stage.Step .standard ⟨['b'], "[2,]/+".toList⟩
      ⟨"(bbb*)".toList, "/+".toList⟩ := .next (by decide +kernel)
  have hreached : Stage.Reached .standard "b[2,]/+".toList ⟨"(bbb*)".toList, "/+".toList⟩ :=
    .head hletter (.single hrepetition)
  exact ⟨hlacks, hreached, ((expand_stages hlacks _).1 _ hreached).1⟩

end

end RegexAutomata
