/-
Spelling out the abbreviations of a pattern.

Each phrase of the source grammar becomes pieces that stand on their own (`Source.pieces`,
`Source.standsAlone_pieces`).  Reading the text of a phrase puts these pieces behind what has been read
before (`Expands`), whatever that is and whatever follows, since an abbreviation finds its operand
from the end.

* `next_eq_ok_iff`, `replace_eq_ok_iff` — one step of the reading, by what it reads;
* `Source.expands` — reading the text of a phrase, by induction on the phrase;
* `Source.expand_text` — spelling out a whole pattern.
-/
import RegexAutomata.Proofs.Pattern.Operands
import RegexAutomata.Proofs.Pattern.Source

namespace RegexAutomata

open Piece Shorthand

/-! ### Copies and alternatives -/

namespace Piece

/-- Alternatives in parentheses. -/
def alternatives (options : List (List Piece)) : List Piece :=
  grouped (List.intercalate [bare '|'] options)

/-- A number of copies of some pieces. -/
def copies (n : Nat) (qs : List Piece) : List Piece := (List.replicate n qs).flatten

/-- As often as the bounds say. -/
def repeated (qs : List Piece) (b : Bounds) : List Piece :=
  match b.upper with
  | none => grouped (copies (b.lower.getD 0) qs ++ qs ++ [bare '*'])
  | some upper =>
    alternatives ((countDown (b.lower.getD 0) upper).map fun n =>
      if n = 0 then [bare emptyMark] else copies n qs)

/-- A character as a literal. -/
def literal (a : Alphabet) (c : Char) : List Piece :=
  if a.hasChar c then [bare c] else grouped [escaped c]

theorem join_grouped (qs : List Piece) : join (grouped qs) = '(' :: join qs ++ [')'] := by
  simp [grouped, text]

theorem join_intercalate (options : List (List Piece)) :
    join (List.intercalate [bare '|'] options) = List.intercalate ['|'] (options.map join) := by
  induction options with
  | nil => rfl
  | cons qs options ih =>
    cases options with
    | nil => simp
    | cons rs options =>
      rw [List.map_cons, List.map_cons, List.intercalate_cons_cons, List.intercalate_cons_cons,
        join_append, join_append, ih]
      rfl

theorem join_alternatives (options : List (List Piece)) :
    join (alternatives options) = Shorthand.alternatives (options.map join) := by
  rw [alternatives, join_grouped, join_intercalate]
  rfl

theorem join_copies (n : Nat) (qs : List Piece) :
    join (copies n qs) = Shorthand.copies n (join qs) := by
  induction n with
  | zero => rfl
  | succ n ih =>
    have h : copies (n + 1) qs = qs ++ copies n qs := rfl
    rw [h, join_append, ih]
    rfl

theorem join_repeated (qs : List Piece) (b : Bounds) :
    join (repeated qs b) = Shorthand.repeated (join qs) b := by
  obtain ⟨lower, _ | upper⟩ := b
  · simp only [repeated, Shorthand.repeated, join_grouped, join_append, join_copies]
    simp [text]
  · simp only [repeated, Shorthand.repeated, join_alternatives, List.map_map]
    congr 2
    funext n
    by_cases hn : n = 0
    · simp only [Function.comp, if_pos hn]
      rfl
    · simp only [Function.comp, if_neg hn, join_copies]

theorem join_literal (a : Alphabet) (c : Char) :
    join (literal a c) = Shorthand.literal a c := by
  unfold literal Shorthand.literal
  by_cases h : a.hasChar c = true
  · rw [if_pos h, if_pos h]
    rfl
  · rw [if_neg h, if_neg h]
    rfl

theorem join_literals (a : Alphabet) (low high : Char) :
    join (alternatives ((charsDown low high).map (literal a))) = oneBetween a low high := by
  have hliteral : join ∘ literal a = Shorthand.literal a := funext (join_literal a)
  rw [join_alternatives, List.map_map, hliteral]
  rfl

end Piece

/-! ### What replacements keep -/

/-- A property of pieces that is kept when they are put behind each other, and that the marks in a
replacement have. -/
structure Composable (P : List Piece → Prop) : Prop where
  nil : P []
  append : ∀ {ps qs}, P ps → P qs → P (ps ++ qs)
  mark : ∀ c ∈ ['*', '|', emptyMark], P [bare c]

section

variable {P : List Piece → Prop} {qs : List Piece}

theorem Composable.intercalate (hP : Composable P) {options : List (List Piece)}
    (h : ∀ qs ∈ options, P qs) : P (List.intercalate [bare '|'] options) := by
  induction options with
  | nil => exact hP.nil
  | cons qs options ih =>
    obtain ⟨hqs, hrest⟩ := List.forall_mem_cons.1 h
    cases options with
    | nil => simpa using hqs
    | cons rs options =>
      rw [List.intercalate_cons_cons]
      exact hP.append (hP.append hqs (hP.mark '|' (by decide))) (ih hrest)

theorem Composable.copies (hP : Composable P) (hqs : P qs) (n : Nat) : P (copies n qs) := by
  induction n with
  | zero => exact hP.nil
  | succ n ih => exact hP.append hqs ih

/-- A repetition is a group. -/
theorem Composable.exists_repeated (hP : Composable P) (hqs : P qs) (b : Bounds) :
    ∃ rs, P rs ∧ Piece.repeated qs b = grouped rs := by
  obtain ⟨lower, _ | upper⟩ := b
  · exact ⟨_, hP.append (hP.append (hP.copies hqs _) hqs) (hP.mark '*' (by decide)), rfl⟩
  · refine ⟨_, hP.intercalate fun rs hrs => ?_, rfl⟩
    obtain ⟨n, _, rfl⟩ := List.mem_map.1 hrs
    by_cases hn : n = 0
    · simp only [if_pos hn]
      exact hP.mark emptyMark (by decide)
    · simp only [if_neg hn]
      exact hP.copies hqs n

/-- A range is a group of literals. -/
theorem Composable.literals {a : Alphabet} (hP : Composable P)
    (hliteral : ∀ c, P (Piece.literal a c)) (low high : Char) :
    P (List.intercalate [bare '|'] ((charsDown low high).map (Piece.literal a))) := by
  refine hP.intercalate fun rs hrs => ?_
  obtain ⟨c, _, rfl⟩ := List.mem_map.1 hrs
  exact hliteral c

end

theorem composable_selfContained : Composable SelfContained where
  nil := selfContained_nil
  append := SelfContained.append
  mark c hc := by
    simp only [List.mem_cons, List.not_mem_nil, or_false] at hc
    rcases hc with rfl | rfl | rfl <;> exact selfContained_bare (by decide)

theorem isOperand_grouped_escaped (c : Char) : IsOperand (grouped [escaped c]) :=
  .group (selfContained_escaped c)

/-! ### Steps of the reading -/

section

variable {a : Alphabet} {done done' after rest : Text} {c : Char}

theorem expandFrom_next (h : next a done c after = .ok (done', rest)) :
    expandFrom a done (c :: after) = expandFrom a done' rest := by
  rw [expandFrom]
  split
  · rename_i e he
    rw [h] at he
    cases he
  · rename_i h'
    rw [h] at h'
    cases h'
    rfl

/-- A reading that succeeds takes a step and goes on. -/
theorem exists_next_of_expandFrom {u : Text} (h : expandFrom a done (c :: after) = .ok u) :
    ∃ done' rest, next a done c after = .ok (done', rest) ∧ expandFrom a done' rest = .ok u := by
  rw [expandFrom] at h
  split at h
  · cases h
  · rename_i hnext
    exact ⟨_, _, hnext, h⟩

/-- Neither a trigger nor an escape marker. -/
def Untouched (c : Char) : Prop := c ≠ escapeMark ∧ isTrigger c = false

/-- Triggers and the escape marker are reserved. -/
theorem untouched_of_isReserved (hc : isReserved c = false) : Untouched c := by
  simp only [isReserved, Bool.or_eq_false_iff] at hc
  obtain ⟨⟨_, hshorthand⟩, hspecial⟩ := hc
  constructor
  · rintro rfl
    cases hspecial
  · refine eq_false_of_ne_true fun htrigger => ?_
    have hall : triggerChars.all isShorthand = true := by decide
    rw [List.all_eq_true.1 hall c (List.contains_iff_mem.1 htrigger)] at hshorthand
    cases hshorthand

theorem ne_of_isTrigger (hc : isTrigger c = true) : c ≠ escapeMark := by
  rintro rfl
  exact absurd hc (by decide)

/-- An operand makes way for what it becomes together with the abbreviation behind it. -/
theorem replace_eq_ok_iff : replace a done c after = .ok (done', rest) ↔
    ∃ part replacement, operandOf done.reverse = .ok part ∧
      spell a part c after = .ok (replacement, rest) ∧
      done' = replacement.reverse ++ done.drop part.length := by
  rw [replace]
  cases hpart : operandOf done.reverse with
  | error f => exact iff_of_false nofun nofun
  | ok part =>
    cases hspell : spell a part c after with
    | error f =>
      simp only [hspell]
      refine iff_of_false nofun ?_
      rintro ⟨_, _, ⟨⟩, hspell', _⟩
      cases hspell.symm.trans hspell'
    | ok spelled =>
      simp only [hspell]
      constructor
      · rintro ⟨⟩
        exact ⟨part, _, rfl, hspell, rfl⟩
      · rintro ⟨_, _, ⟨⟩, hspell', rfl⟩
        cases hspell.symm.trans hspell'
        rfl

/-- What a step of the reading makes of the text before a character and behind it. -/
inductive ReadsOn (a : Alphabet) (done : Text) : Char → Text → Text → Text → Prop
  | escape (d : Char) (rest : Text) :
    ReadsOn a done escapeMark (d :: rest) (')' :: d :: escapeMark :: '(' :: done) rest
  | untouched {c : Char} (hc : Untouched c) (after : Text) : ReadsOn a done c after (c :: done) after
  | trigger {c : Char} {after done' rest : Text} (hc : isTrigger c = true)
    (h : replace a done c after = .ok (done', rest)) : ReadsOn a done c after done' rest

theorem next_eq_ok_iff :
    next a done c after = .ok (done', rest) ↔ ReadsOn a done c after done' rest := by
  constructor
  · intro h
    rw [next.eq_def] at h
    split at h
    · rename_i hescape
      subst hescape
      cases after with
      | nil => cases h
      | cons d after =>
        cases h
        exact .escape d rest
    · rename_i hescape
      split at h
      · rename_i htrigger
        exact .trigger htrigger h
      · rename_i htrigger
        cases h
        exact .untouched ⟨hescape, Bool.eq_false_iff.2 htrigger⟩ after
  · intro h
    cases h with
    | escape d rest => rw [next, if_pos rfl]
    | untouched hc => rw [next.eq_def, if_neg hc.1, if_neg (by rw [hc.2]; decide)]
    | trigger hc h => rw [next.eq_def, if_neg (ne_of_isTrigger hc), if_pos hc, h]

theorem expandFrom_untouched (hc : Untouched c) (done after : Text) :
    expandFrom a done (c :: after) = expandFrom a (c :: done) after :=
  expandFrom_next (next_eq_ok_iff.2 (.untouched hc after))

theorem expandFrom_escape (done : Text) (c : Char) (after : Text) :
    expandFrom a done (escapeMark :: c :: after) =
      expandFrom a (')' :: c :: escapeMark :: '(' :: done) after :=
  expandFrom_next (next_eq_ok_iff.2 (.escape c after))

/-- Where the operand is the end of what has been read, the rest of that stays. -/
theorem drop_operand (ps qs rs : List Piece) :
    (join rs).reverse ++ (join (ps ++ qs)).reverse.drop (join qs).length =
      (join (ps ++ rs)).reverse := by
  rw [join_append, join_append, List.reverse_append, List.reverse_append,
    List.drop_left' (List.length_reverse ..)]

/-- An abbreviation makes way, together with its operand, for what it stands for. -/
theorem expandFrom_trigger {ps qs rs : List Piece} (hps : bare escapeMark ∉ ps)
    (hqs : IsOperand qs) (hc : isTrigger c = true)
    (hspell : spell a (join qs) c after = .ok (join rs, rest)) :
    expandFrom a (join (ps ++ qs)).reverse (c :: after) =
      expandFrom a (join (ps ++ rs)).reverse rest := by
  refine expandFrom_next (next_eq_ok_iff.2 (.trigger hc (replace_eq_ok_iff.2 ?_)))
  rw [List.reverse_reverse]
  exact ⟨join qs, join rs, operandOf_join_append hps hqs, hspell, (drop_operand ps qs rs).symm⟩

end

/-- Reading the text puts the pieces behind what has been read before. -/
def Expands (a : Alphabet) (t : Text) (qs : List Piece) : Prop :=
  ∀ ps rest, bare escapeMark ∉ ps →
    expandFrom a (join ps).reverse (t ++ rest) = expandFrom a (join (ps ++ qs)).reverse rest

section

variable {a : Alphabet} {t u : Text} {qs rs : List Piece}

theorem expands_nil : Expands a [] [] := by
  intro ps rest _
  rw [List.append_nil]
  rfl

theorem Expands.expand_eq (ht : Expands a t qs) : expand a t = .ok (join qs) := by
  have h := ht [] [] List.not_mem_nil
  rw [List.append_nil] at h
  calc expand a t = expandFrom a (join qs).reverse [] := h
    _ = .ok (join qs) := by rw [expandFrom, List.reverse_reverse]

theorem Expands.append (ht : Expands a t qs) (hqs : bare escapeMark ∉ qs) (hu : Expands a u rs) :
    Expands a (t ++ u) (qs ++ rs) := by
  intro ps rest hps
  have hcomplete : bare escapeMark ∉ ps ++ qs := fun h => (List.mem_append.1 h).elim hps hqs
  rw [List.append_assoc, ht ps _ hps, hu _ rest hcomplete, List.append_assoc]

theorem expands_untouched {c : Char} (hc : Untouched c) : Expands a [c] [bare c] := by
  intro ps rest _
  have hreverse : (join (ps ++ [bare c])).reverse = c :: (join ps).reverse := by simp [text]
  rw [hreverse]
  exact expandFrom_untouched hc _ rest

theorem expands_replicate {c : Char} (hc : Untouched c) (n : Nat) :
    Expands a (List.replicate n c) (List.replicate n (bare c)) := by
  induction n with
  | zero => exact expands_nil
  | succ n ih =>
    refine (expands_untouched hc).append ?_ ih
    intro h
    exact hc.1 (bare.inj (List.mem_singleton.1 h)).symm

theorem expands_escape (c : Char) : Expands a [escapeMark, c] (grouped [escaped c]) := by
  intro ps rest _
  have hreverse : (join (ps ++ grouped [escaped c])).reverse =
      ')' :: c :: escapeMark :: '(' :: (join ps).reverse := by
    simp [grouped, text]
  rw [hreverse]
  exact expandFrom_escape _ c rest

end

/-! ### Suffixes -/

namespace Suffix

/-- What a suffix makes of the pieces of its operand. -/
def expand (s : Suffix) (qs : List Piece) : List Piece :=
  match s with
  | star => qs ++ [bare '*']
  | oneOrMore => grouped (qs ++ qs ++ [bare '*'])
  | atMostOnce => alternatives [qs, [bare emptyMark]]
  | repeated b => Piece.repeated qs b.bounds

/-- What suffixes make of the pieces of their operand, one after the other. -/
def expandAll (ss : List Suffix) (qs : List Piece) : List Piece :=
  ss.foldl (fun qs s => s.expand qs) qs

theorem join_oneOrMore (qs : List Piece) :
    join (oneOrMore.expand qs) = Shorthand.oneOrMore (join qs) := by
  simp [Shorthand.oneOrMore, expand, join_grouped, Piece.text]

theorem join_atMostOnce (qs : List Piece) :
    join (atMostOnce.expand qs) = Shorthand.atMostOnce (join qs) := by
  rw [expand, join_alternatives]
  rfl

end Suffix

section

variable {a : Alphabet} {t : Text} {qs : List Piece}

/-- All suffixes but a star make a group. -/
theorem Composable.exists_expand {P : List Piece → Prop} (hP : Composable P) (hqs : P qs)
    {s : Suffix} (hs : s ≠ .star) : ∃ rs, P rs ∧ s.expand qs = grouped rs := by
  cases s with
  | star => exact absurd rfl hs
  | oneOrMore => exact ⟨_, hP.append (hP.append hqs hqs) (hP.mark '*' (by decide)), rfl⟩
  | atMostOnce =>
    refine ⟨_, hP.intercalate (List.forall_mem_cons.2 ⟨hqs, ?_⟩), rfl⟩
    exact List.forall_mem_singleton.2 (hP.mark emptyMark (by decide))
  | repeated b => exact hP.exists_repeated hqs b.bounds

theorem IsOperand.expand (h : IsOperand qs) (s : Suffix) : IsOperand (s.expand qs) := by
  by_cases hs : s = .star
  · subst hs
    exact .star h
  · obtain ⟨rs, hrs, heq⟩ := composable_selfContained.exists_expand h.selfContained hs
    rw [heq]
    exact .group hrs

theorem spell_bounds (b : WrittenBounds) (part rest : Text) :
    spell a part '[' (b.inside ++ rest) = .ok (Shorthand.repeated part b.bounds, rest) := by
  have hparse : Bounds.parse? ('[' :: (b.inside ++ rest)) = some (b.bounds, rest) :=
    b.parse?_text_append rest
  rw [spell, if_neg (by decide), if_neg (by decide), if_neg (by decide), hparse]
  cases hlower : b.bounds.lower with
  | none => simp only [hlower]
  | some m =>
    cases hupper : b.bounds.upper with
    | none => simp only [hlower, hupper]
    | some n =>
      have hle : m ≤ n := b.ordered m hlower n hupper
      simp only [hlower, hupper, if_neg (Nat.not_lt.2 hle)]

theorem Expands.suffix (h : Expands a t qs) (hqs : IsOperand qs) (s : Suffix) :
    Expands a (t ++ s.text) (s.expand qs) := by
  intro ps rest hps
  rw [List.append_assoc, h ps _ hps]
  cases s with
  | star =>
    have hreverse : (join (ps ++ (qs ++ [bare '*']))).reverse =
        '*' :: (join (ps ++ qs)).reverse := by
      simp [text]
    show _ = expandFrom a (join (ps ++ (qs ++ [bare '*']))).reverse rest
    rw [hreverse]
    exact expandFrom_untouched ⟨by decide, rfl⟩ _ rest
  | oneOrMore =>
    have hspell : spell a (join qs) '+' rest = .ok (join (Suffix.oneOrMore.expand qs), rest) := by
      rw [spell, if_pos rfl, Suffix.join_oneOrMore]
    exact expandFrom_trigger hps hqs rfl hspell
  | atMostOnce =>
    have hspell : spell a (join qs) '?' rest = .ok (join (Suffix.atMostOnce.expand qs), rest) := by
      rw [spell, if_neg (by decide), if_pos rfl, Suffix.join_atMostOnce]
    exact expandFrom_trigger hps hqs rfl hspell
  | repeated b =>
    have hspell := spell_bounds (a := a) b (join qs) rest
    rw [← join_repeated] at hspell
    exact expandFrom_trigger hps hqs rfl hspell

theorem IsOperand.expandAll (h : IsOperand qs) (ss : List Suffix) :
    IsOperand (Suffix.expandAll ss qs) := by
  induction ss generalizing qs with
  | nil => exact h
  | cons s ss ih => exact ih (h.expand s)

theorem Expands.suffixes (h : Expands a t qs) (hqs : IsOperand qs) (ss : List Suffix) :
    Expands a (t ++ ss.flatMap Suffix.text) (Suffix.expandAll ss qs) := by
  induction ss generalizing t qs with
  | nil =>
    rw [List.flatMap_nil, List.append_nil]
    exact h
  | cons s ss ih =>
    rw [List.flatMap_cons, ← List.append_assoc]
    exact ih (h.suffix hqs s) (hqs.expand s)

end

/-! ### Phrases -/

/-- The pieces of one end of a range. -/
def Endpoint.pieces {a : Alphabet} : Endpoint a → List Piece
  | literal c _ => [bare c]
  | escaped c => grouped [.escaped c]

namespace Source

variable {a : Alphabet}

/-- The pieces of a phrase when its abbreviations have been spelled out. -/
def pieces {l : Level} : Source a l → List Piece
  | literal c _ => [bare c]
  | escaped c => grouped [.escaped c]
  | empty => [bare emptyMark]
  | any => [bare anyMark]
  | range low high _ => alternatives ((charsDown low.char high.char).map (Piece.literal a))
  | group e => grouped e.pieces
  | suffixed p ss => Suffix.expandAll ss p.pieces
  | negated k _ p ss _ stars =>
    List.replicate k (bare '!') ++ Suffix.expandAll ss p.pieces ++
      List.replicate stars (bare '*')
  | ofFactor f => f.pieces
  | concat f marked t => f.pieces ++ (if marked then [bare '&'] else []) ++ t.pieces
  | ofTerm t => t.pieces
  | union t e => t.pieces ++ bare '|' :: e.pieces

end Source

section

variable {a : Alphabet} (ha : a.Lacks (operatorChars ++ shorthandChars ++ specialChars))

include ha

theorem isReserved_of_hasChar {c : Char} (hc : a.hasChar c = true) : isReserved c = false := by
  obtain ⟨hlacks, hspecial⟩ := Alphabet.Lacks.append.1 ha
  obtain ⟨hoperator, hshorthand⟩ := Alphabet.Lacks.append.1 hlacks
  have h1 : isOperator c = false := hoperator.contains hc
  have h2 : isShorthand c = false := hshorthand.contains hc
  have h3 : isSpecial c = false := hspecial.contains hc
  rw [isReserved, h1, h2, h3]
  rfl

theorem isOperand_bare {c : Char} (hc : a.hasChar c = true) : IsOperand [bare c] := by
  have h := isReserved_of_hasChar ha hc
  simp only [isReserved, Bool.or_eq_false_iff] at h
  exact .plain h.1.1 h.1.2 (ha.ne hc (by decide))

theorem untouched_of_hasChar {c : Char} (hc : a.hasChar c = true) : Untouched c :=
  untouched_of_isReserved (isReserved_of_hasChar ha hc)

theorem isOperand_literal (c : Char) : IsOperand (Piece.literal a c) := by
  unfold Piece.literal
  by_cases hc : a.hasChar c = true
  · rw [if_pos hc]
    exact isOperand_bare ha hc
  · rw [if_neg hc]
    exact isOperand_grouped_escaped c

/-! ### Ranges -/

theorem isOperand_endpoint (x : Endpoint a) : IsOperand x.pieces := by
  cases x with
  | literal c hc => exact isOperand_bare ha hc
  | escaped c => exact isOperand_grouped_escaped c

theorem expands_endpoint (x : Endpoint a) : Expands a x.text x.pieces := by
  cases x with
  | literal c hc => exact expands_untouched (untouched_of_hasChar ha hc)
  | escaped c => exact expands_escape c

theorem lowerEndpoint_pieces (x : Endpoint a) : lowerEndpoint (join x.pieces) = some x.char := by
  cases x with
  | literal c hc =>
    show (if isReserved c = true then none else some c) = some c
    rw [isReserved_of_hasChar ha hc]
    rfl
  | escaped c => rfl

theorem upperEndpoint_text_append (x : Endpoint a) (rest : Text) :
    upperEndpoint (x.text ++ rest) = some (x.char, rest) := by
  cases x with
  | literal c hc =>
    show upperEndpoint (c :: rest) = some (c, rest)
    have he : c ≠ escapeMark := ha.ne hc (by decide)
    rw [upperEndpoint.eq_def]
    show (if c = escapeMark then _ else if isReserved c = true then none else some (c, rest)) = _
    rw [if_neg he, isReserved_of_hasChar ha hc]
    rfl
  | escaped c => rfl

theorem expands_range (low high : Endpoint a) (h : low.char ≤ high.char) :
    Expands a (low.text ++ '-' :: high.text)
      (Piece.alternatives ((charsDown low.char high.char).map (Piece.literal a))) := by
  intro ps rest hps
  have hspell : spell a (join low.pieces) '-' (high.text ++ rest) =
      .ok (join (Piece.alternatives ((charsDown low.char high.char).map (Piece.literal a))),
        rest) := by
    rw [spell, if_neg (by decide), if_neg (by decide), if_pos rfl, lowerEndpoint_pieces ha,
      upperEndpoint_text_append ha]
    show (if high.char < low.char then _ else _) = _
    rw [if_neg (Char.not_lt.2 h), join_literals]
  -- the lower end has been read before the dash, as its operand
  rw [List.append_assoc, expands_endpoint ha low ps _ hps]
  exact expandFrom_trigger hps (isOperand_endpoint ha low) rfl hspell

/-! ### All phrases -/

omit ha in
theorem selfContained_replicate {c : Char} (hc : c ∉ ['(', ')', escapeMark]) (n : Nat) :
    SelfContained (List.replicate n (bare c)) := by
  induction n with
  | zero => exact selfContained_nil
  | succ n ih => exact (selfContained_bare hc).append ih

/-- The pieces of a phrase stand on their own, and if it is a primary one, an abbreviation behind
them applies to all of them. -/
def Level.StandsAlone (qs : List Piece) : Level → Prop
  | base => IsOperand qs
  | _ => SelfContained qs

theorem Source.standsAlone_pieces {l : Level} (s : Source a l) : l.StandsAlone s.pieces := by
  induction s with
  | literal c hc => exact isOperand_bare ha hc
  | escaped c => exact isOperand_grouped_escaped c
  | empty => exact .plain rfl rfl (by decide)
  | any => exact .plain rfl rfl (by decide)
  | range low high h =>
    have hliteral : ∀ c, SelfContained (Piece.literal a c) :=
      fun c => (isOperand_literal ha c).selfContained
    exact .group (composable_selfContained.literals hliteral low.char high.char)
  | group e ih => exact .group ih
  | suffixed p ss ih => exact (ih.expandAll ss).selfContained
  | negated k hk p ss hss stars ih =>
    have hmarks := selfContained_replicate (c := '!') (by decide) k
    have hstars := selfContained_replicate (c := '*') (by decide) stars
    exact (hmarks.append (ih.expandAll ss).selfContained).append hstars
  | ofFactor f ih => exact ih
  | concat f marked t ihf iht =>
    refine SelfContained.append (SelfContained.append ihf ?_) iht
    cases marked with
    | false => exact selfContained_nil
    | true => exact selfContained_bare (by decide)
  | ofTerm t ih => exact ih
  | union t e iht ihe =>
    exact SelfContained.append iht
      ((selfContained_bare (c := '|') (by decide)).append ihe)

/-- Reading the text of a phrase puts its pieces behind what has been read. -/
theorem Source.expands {l : Level} (s : Source a l) : Expands a s.text s.pieces := by
  induction s with
  | literal c hc => exact expands_untouched (untouched_of_hasChar ha hc)
  | escaped c => exact expands_escape c
  | empty => exact expands_untouched ⟨by decide, rfl⟩
  | any => exact expands_untouched ⟨by decide, rfl⟩
  | range low high h => exact expands_range ha low high h
  | group e ih =>
    have he : SelfContained e.pieces := e.standsAlone_pieces ha
    have hopening : Expands a ['('] [bare '('] := expands_untouched ⟨by decide, rfl⟩
    have hclosing : Expands a [')'] [bare ')'] := expands_untouched ⟨by decide, rfl⟩
    exact (hopening.append (by decide) ih).append (by simpa using ⟨by decide, he.complete⟩) hclosing
  | suffixed p ss ih => exact ih.suffixes (p.standsAlone_pieces ha) ss
  | negated k hk p ss hss stars ih =>
    have hp : IsOperand p.pieces := p.standsAlone_pieces ha
    have hmarks := selfContained_replicate (c := '!') (by decide) k
    have hoperand := (hp.expandAll ss).selfContained
    -- the marks, then the operand with its suffixes, and then the stars
    have hrun := (expands_replicate (a := a) (c := '!') ⟨by decide, rfl⟩ k).append hmarks.complete
      (ih.suffixes hp ss)
    rw [← List.append_assoc] at hrun
    exact hrun.append (hmarks.append hoperand).complete (expands_replicate ⟨by decide, rfl⟩ stars)
  | ofFactor f ih => exact ih
  | concat f marked t ihf iht =>
    have hf : SelfContained f.pieces := f.standsAlone_pieces ha
    cases marked with
    | false =>
      have hnone := ihf.append hf.complete (expands_nil (a := a))
      exact hnone.append (hf.append selfContained_nil).complete iht
    | true =>
      have hmark : SelfContained [bare '&'] :=
        selfContained_bare (by decide)
      exact (ihf.append hf.complete (expands_untouched ⟨by decide, rfl⟩)).append
        (hf.append hmark).complete iht
  | ofTerm t ih => exact ih
  | union t e iht ihe =>
    have ht : SelfContained t.pieces := t.standsAlone_pieces ha
    have hmark : Expands a ['|'] [bare '|'] := expands_untouched ⟨by decide, rfl⟩
    exact iht.append ht.complete (hmark.append (by decide) ihe)

/-- Spelling out a whole pattern. -/
theorem Source.expand_text (e : Source a .expr) : expand a e.text = .ok (join e.pieces) :=
  (e.expands ha).expand_eq

end

end RegexAutomata
