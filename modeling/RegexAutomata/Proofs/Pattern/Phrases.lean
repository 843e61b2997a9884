/-
The canonical form of a pattern, phrase by phrase.

When the abbreviations have been spelled out, two passes are left, which work on adjacent pieces.
The pieces of a phrase start and end like an operand, so the passes treat neighbouring phrases
separately, apart from the `&` that is put between them.  What they make of a phrase is the
spelling of a canonical phrase, with the language of the phrase (`Reading`).

* `Reading.group`, `concat`, `union`, … — one lemma for each way to put phrases together;
* `Reading.suffix` — copies and alternatives;
* `Source.reading` — all phrases, by induction.
-/
import RegexAutomata.Proofs.Pattern.Expansion

open scoped Computability

namespace RegexAutomata

open Piece

/-! ### Neighbours -/

/-- Pieces after the last two passes. -/
def canonicalPieces (qs : List Piece) : List Piece := joinOperands (cancelNegations qs)

/-- The last of the pieces is the end of an operand. -/
def EndsOperand (qs : List Piece) : Prop := ∃ init q, qs = init ++ [q] ∧ q.endsOperand = true

section

variable {p r : Piece} {qs rs rest : List Piece}

theorem EndsOperand.cancelNegations_append (h : EndsOperand qs) (rs : List Piece) :
    cancelNegations (qs ++ rs) = cancelNegations qs ++ cancelNegations rs := by
  obtain ⟨init, q, rfl, hq⟩ := h
  have hne : q ≠ bare '!' := by
    rintro rfl
    exact absurd hq (by decide)
  rw [List.append_assoc, cancelNegations_append_cons hne]
  show cancelNegations (init ++ q :: rs) = _
  rw [cancelNegations_append_cons hne, List.append_assoc]
  rfl

/-- Only `&` is put between the end of an operand and what follows it. -/
theorem EndsOperand.canonicalPieces_append (h : EndsOperand qs)
    (hr : cancelNegations rs = r :: rest) :
    canonicalPieces (qs ++ rs) =
      canonicalPieces qs ++
        ((if r.startsOperand then [bare '&'] else []) ++ canonicalPieces rs) := by
  have happend := h.cancelNegations_append rs
  obtain ⟨init, q, rfl, hq⟩ := h
  have hne : q ≠ bare '!' := by
    rintro rfl
    exact absurd hq (by decide)
  have hlast : cancelNegations (init ++ [q]) = cancelNegations init ++ [q] :=
    cancelNegations_append_cons hne init []
  have hseparator : separator q r = if r.startsOperand then [bare '&'] else [] := by
    rw [separator, hq, Bool.true_and]
  unfold canonicalPieces
  rw [happend, hr, hlast, List.append_assoc, ← hseparator]
  exact joinOperands_append _ q r rest

/-- A piece behind an operand stays where it is if it does not start another one. -/
theorem EndsOperand.canonicalPieces_append_singleton (h : EndsOperand qs) (hp : p ≠ bare '!')
    (hstart : p.startsOperand = false) :
    canonicalPieces (qs ++ [p]) = canonicalPieces qs ++ [p] := by
  have hone : cancelNegations [p] = [p] := cancelNegations_cons hp []
  have happend := h.canonicalPieces_append hone
  rw [hstart] at happend
  exact happend

theorem canonicalPieces_cons (hp : p ≠ bare '!') (hend : p.endsOperand = false)
    (rs : List Piece) : canonicalPieces (p :: rs) = p :: canonicalPieces rs := by
  unfold canonicalPieces
  rw [cancelNegations_cons hp]
  cases cancelNegations rs with
  | nil => rfl
  | cons r rest => rw [joinOperands_cons_cons, separator, hend]; rfl

/-- A binary operator stays where it is. -/
theorem EndsOperand.canonicalPieces_append_cons (h : EndsOperand qs) (hp : p ≠ bare '!')
    (hend : p.endsOperand = false) (hstart : p.startsOperand = false) (rs : List Piece) :
    canonicalPieces (qs ++ p :: rs) = canonicalPieces qs ++ p :: canonicalPieces rs := by
  have happend := h.canonicalPieces_append (cancelNegations_cons hp rs)
  rw [hstart, canonicalPieces_cons hp hend] at happend
  exact happend

/-- An odd run of negations is one negation, and an even run is none. -/
theorem canonicalPieces_replicate_append (hr : ∀ r ∈ rs.head?, r ≠ bare '!') (k : Nat) :
    canonicalPieces (List.replicate k (bare '!') ++ rs) =
      if Odd k then bare '!' :: canonicalPieces rs else canonicalPieces rs := by
  unfold canonicalPieces
  rw [cancelNegations_replicate_append]
  by_cases hk : Odd k
  · rw [if_pos hk, if_pos hk]
    cases rs with
    | nil => rfl
    | cons r rs =>
      have hr : r ≠ bare '!' := hr r rfl
      rw [cancelNegations_single hr, cancelNegations_cons hr, joinOperands_cons_cons]
      rfl
  · rw [if_neg hk, if_neg hk]

end

/-! ### Phrases -/

/-- After the last two passes the pieces spell a canonical phrase for the language.  They start and
end like an operand. -/
structure Reading (a : Alphabet) (symbols : List Symbol) (l : Level) (qs : List Piece)
    (L : Language Symbol) : Prop where
  first : ∃ r rest, cancelNegations qs = r :: rest ∧ r.startsOperand = true
  last : EndsOperand qs
  spelling : ∃ e : Canon l, List.Forall₂ (Piece.Spells a) (canonicalPieces qs) e.tokens ∧
    e.denote symbols = L

namespace Reading

variable {a : Alphabet} {symbols : List Symbol} {l : Level} {ps qs rs : List Piece}
  {L M : Language Symbol}

theorem atom {p : Piece} {x : Atom} (hp : Piece.Spells a p (.atom x))
    (hstart : p.startsOperand = true) (hend : p.endsOperand = true) :
    Reading a symbols .base [p] x.language where
  first := ⟨p, [], rfl, hstart⟩
  last := ⟨[], p, rfl, hend⟩
  spelling := ⟨.atom x, .cons hp .nil, rfl⟩

theorem group (h : Reading a symbols .expr qs L) : Reading a symbols .base (grouped qs) L := by
  have hclosing : canonicalPieces (qs ++ [bare ')']) = canonicalPieces qs ++ [bare ')'] :=
    h.last.canonicalPieces_append_singleton (by decide) rfl
  have hopening : canonicalPieces (grouped qs) =
      bare '(' :: (canonicalPieces qs ++ [bare ')']) := by
    rw [← hclosing]
    exact canonicalPieces_cons (by decide) rfl _
  obtain ⟨e, hspells, hdenote⟩ := h.spelling
  refine ⟨⟨bare '(', _, cancelNegations_cons (by decide) _, rfl⟩, ⟨_, bare ')', rfl, rfl⟩,
    .group e, ?_, hdenote⟩
  rw [hopening]
  exact .cons (.op .opening) (List.rel_append hspells (.cons (.op .closing) .nil))

theorem ofBase (h : Reading a symbols .base qs L) : Reading a symbols .factor qs L := by
  obtain ⟨e, hspells, hdenote⟩ := h.spelling
  exact ⟨h.first, h.last, .ofBase e, hspells, hdenote⟩

theorem ofFactor (h : Reading a symbols .factor qs L) : Reading a symbols .term qs L := by
  obtain ⟨e, hspells, hdenote⟩ := h.spelling
  exact ⟨h.first, h.last, .ofFactor e, hspells, hdenote⟩

theorem ofTerm (h : Reading a symbols .term qs L) : Reading a symbols .expr qs L := by
  obtain ⟨e, hspells, hdenote⟩ := h.spelling
  exact ⟨h.first, h.last, .ofTerm e, hspells, hdenote⟩

/-- What starts like an operand still does so with something behind it. -/
theorem first_append (h : Reading a symbols l qs L) (rs : List Piece) :
    ∃ r rest, cancelNegations (qs ++ rs) = r :: rest ∧ r.startsOperand = true := by
  obtain ⟨r, rest, hr, hstart⟩ := h.first
  exact ⟨r, _, by rw [h.last.cancelNegations_append, hr, List.cons_append], hstart⟩

theorem last_append (h : Reading a symbols l qs L) (ps : List Piece) : EndsOperand (ps ++ qs) := by
  obtain ⟨init, q, rfl, hq⟩ := h.last
  exact ⟨ps ++ init, q, (List.append_assoc ..).symm, hq⟩

theorem star (h : Reading a symbols .factor qs L) :
    Reading a symbols .factor (qs ++ [bare '*']) L∗ := by
  have hstar : canonicalPieces (qs ++ [bare '*']) = canonicalPieces qs ++ [bare '*'] :=
    h.last.canonicalPieces_append_singleton (by decide) rfl
  obtain ⟨e, hspells, rfl⟩ := h.spelling
  refine ⟨h.first_append _, ⟨qs, bare '*', rfl, rfl⟩, .star e, ?_, rfl⟩
  rw [hstar]
  exact List.rel_append hspells (.cons (.op .star) .nil)

theorem concat (hq : Reading a symbols .factor qs L) (hr : Reading a symbols .term rs M) :
    Reading a symbols .term (qs ++ rs) (L * M) := by
  obtain ⟨r, rest, heq, hstart⟩ := hr.first
  have happend := hq.last.canonicalPieces_append heq
  rw [if_pos hstart] at happend
  obtain ⟨f, hf, rfl⟩ := hq.spelling
  obtain ⟨t, ht, rfl⟩ := hr.spelling
  refine ⟨hq.first_append rs, hr.last_append qs, .concat f t, ?_, rfl⟩
  rw [happend]
  exact List.rel_append hf (.cons (.op .concat) ht)

/-- Marking a concatenation makes no difference. -/
theorem concat_marked (hq : Reading a symbols .factor qs L) (hr : Reading a symbols .term rs M) :
    Reading a symbols .term (qs ++ [bare '&'] ++ rs) (L * M) := by
  have happend := hq.last.canonicalPieces_append_cons (p := bare '&') (by decide) rfl rfl rs
  obtain ⟨f, hf, rfl⟩ := hq.spelling
  obtain ⟨t, ht, rfl⟩ := hr.spelling
  rw [List.append_assoc]
  refine ⟨hq.first_append _, ?_, .concat f t, ?_, rfl⟩
  · exact hr.last_append (qs ++ [bare '&']) |>.imp fun _ h => by simpa using h
  · show List.Forall₂ _ (canonicalPieces (qs ++ bare '&' :: rs)) _
    rw [happend]
    exact List.rel_append hf (.cons (.op .concat) ht)

theorem union (hq : Reading a symbols .term qs L) (hr : Reading a symbols .expr rs M) :
    Reading a symbols .expr (qs ++ bare '|' :: rs) (L + M) := by
  have happend := hq.last.canonicalPieces_append_cons (p := bare '|') (by decide) rfl rfl rs
  obtain ⟨t, ht, rfl⟩ := hq.spelling
  obtain ⟨e, he, rfl⟩ := hr.spelling
  refine ⟨hq.first_append _, ?_, .union t e, ?_, rfl⟩
  · exact hr.last_append (qs ++ [bare '|']) |>.imp fun _ h => by simpa using h
  · rw [happend]
    exact List.rel_append ht (.cons (.op .union) he)

/-- Only the parity of a run of negations matters. -/
theorem negations (h : Reading a symbols .base qs L) (hne : ∀ q ∈ qs.head?, q ≠ bare '!')
    (k : Nat) : Reading a symbols .factor (List.replicate k (bare '!') ++ qs)
      (if Odd k then complementIn symbols L else L) := by
  have hcanonical := canonicalPieces_replicate_append hne k
  obtain ⟨r, rest, hr, hstart⟩ := h.first
  obtain ⟨b, hb, rfl⟩ := h.spelling
  by_cases hk : Odd k
  · rw [if_pos hk] at hcanonical ⊢
    refine ⟨⟨bare '!', cancelNegations qs, ?_, rfl⟩, h.last_append _, .complement b, ?_, rfl⟩
    · rw [cancelNegations_replicate_append, if_pos hk]
      cases qs with
      | nil => cases hr
      | cons q qs => exact cancelNegations_single (hne q rfl) qs
    · rw [hcanonical]
      exact .cons (.op .complement) hb
  · rw [if_neg hk] at hcanonical ⊢
    refine ⟨⟨r, rest, ?_, hstart⟩, h.last_append _, .ofBase b, ?_, rfl⟩
    · rw [cancelNegations_replicate_append, if_neg hk, hr]
    · rw [hcanonical]
      exact hb

end Reading

/-! ### Numbers of copies and ranges of characters -/

/-- A number of times at least. -/
theorem mem_pow_mul_kstar {L : Language Symbol} {m : Nat} {w : List Symbol} :
    w ∈ L ^ m * L∗ ↔ ∃ n, m ≤ n ∧ w ∈ L ^ n := by
  simp only [Language.kstar_eq_iSup_pow, Language.mul_iSup, Language.mem_iSup, ← pow_add]
  constructor
  · rintro ⟨i, hw⟩
    exact ⟨m + i, Nat.le_add_right m i, hw⟩
  · rintro ⟨n, hmn, hw⟩
    refine ⟨n - m, ?_⟩
    rwa [Nat.add_sub_cancel' hmn]

theorem mem_countDown {lower upper n : Nat} :
    n ∈ Shorthand.countDown lower upper ↔ lower ≤ n ∧ n ≤ upper := by
  simp only [Shorthand.countDown, List.mem_map, List.mem_range]
  constructor
  · rintro ⟨i, hi, rfl⟩
    omega
  · rintro ⟨h1, h2⟩
    exact ⟨upper - n, by omega, by omega⟩

theorem mem_charsDown {low high c : Char} :
    c ∈ Shorthand.charsDown low high ↔ low ≤ c ∧ c ≤ high := by
  rw [Shorthand.charsDown, List.mem_filterMap]
  constructor
  · rintro ⟨n, hn, hc⟩
    obtain ⟨hlow, hhigh⟩ := mem_countDown.1 hn
    unfold Shorthand.charOfCode? at hc
    by_cases hvalid : n.isValidChar
    · rw [if_pos hvalid] at hc
      have hcode : (Char.ofNat n).toNat = n := by
        rw [Char.ofNat, dif_pos hvalid]
        rfl
      rw [← hcode] at hlow hhigh
      cases hc
      exact ⟨hlow, hhigh⟩
    · rw [if_neg hvalid] at hc
      cases hc
  · rintro ⟨hlow, hhigh⟩
    refine ⟨c.toNat, mem_countDown.2 ⟨hlow, hhigh⟩, ?_⟩
    have hvalid : c.toNat.isValidChar := c.valid
    rw [Shorthand.charOfCode?, if_pos hvalid, Char.ofNat_toNat]

namespace Reading

variable {a : Alphabet} {symbols : List Symbol} {qs : List Piece} {L : Language Symbol}

/-! ### Copies and alternatives -/

theorem alternatives {α : Type} {options : List α} (hne : options ≠ []) {f : α → List Piece}
    {F : α → Language Symbol} (h : ∀ x ∈ options, Reading a symbols .term (f x) (F x)) :
    Reading a symbols .base (Piece.alternatives (options.map f))
      {w | ∃ x ∈ options, w ∈ F x} := by
  refine group ?_
  induction options with
  | nil => exact absurd rfl hne
  | cons x options ih =>
    obtain ⟨hx, hrest⟩ := List.forall_mem_cons.1 h
    cases options with
    | nil =>
      -- the last alternative has no `|` behind it
      have hlanguage : {w | ∃ y ∈ [x], w ∈ F y} = F x := by
        ext w
        constructor
        · rintro ⟨y, hy, hw⟩
          exact List.mem_singleton.1 hy ▸ hw
        · exact fun hw => ⟨x, List.mem_singleton_self x, hw⟩
      rw [hlanguage, List.map_singleton, List.intercalate_singleton]
      exact hx.ofTerm
    | cons y options =>
      set G : Language Symbol := {w | ∃ z ∈ y :: options, w ∈ F z} with hG
      have hlanguage : {w | ∃ z ∈ x :: y :: options, w ∈ F z} = F x + G := by
        ext w
        exact List.exists_mem_cons_iff ..
      rw [hlanguage, List.map_cons, List.map_cons, List.intercalate_cons_cons, List.append_assoc]
      exact hx.union (ih (List.cons_ne_nil _ _) hrest)

theorem copies (h : Reading a symbols .factor qs L) (n : Nat) :
    Reading a symbols .term (Piece.copies (n + 1) qs) (L ^ (n + 1)) := by
  induction n with
  | zero =>
    have hone : Piece.copies 1 qs = qs := List.append_nil qs
    rw [hone, pow_one]
    exact h.ofFactor
  | succ n ih =>
    rw [pow_succ']
    exact h.concat ih

theorem copies_star (h : Reading a symbols .factor qs L) (n : Nat) :
    Reading a symbols .term (Piece.copies n qs ++ qs ++ [bare '*']) (L ^ n * L∗) := by
  induction n with
  | zero =>
    rw [pow_zero, one_mul]
    exact h.star.ofFactor
  | succ n ih =>
    have hsucc : Piece.copies (n + 1) qs ++ qs ++ [bare '*'] =
        qs ++ (Piece.copies n qs ++ qs ++ [bare '*']) := by
      show qs ++ Piece.copies n qs ++ qs ++ [bare '*'] = _
      simp only [List.append_assoc]
    rw [hsucc, pow_succ', mul_assoc]
    exact h.concat ih

theorem empty : Reading a symbols .base [bare emptyMark] (1 : Language Symbol) :=
  atom .empty rfl rfl

theorem repeated (h : Reading a symbols .factor qs L) {b : Bounds}
    (hb : ∀ m ∈ b.lower, ∀ n ∈ b.upper, m ≤ n) :
    Reading a symbols .base (Piece.repeated qs b)
      {w | ∃ n, (∀ m ∈ b.lower, m ≤ n) ∧ (∀ m ∈ b.upper, n ≤ m) ∧ w ∈ L ^ n} := by
  obtain ⟨lower, upper⟩ := b
  have hlower : ∀ n, (∀ m ∈ lower, m ≤ n) ↔ lower.getD 0 ≤ n := by
    intro n
    cases lower <;> simp
  cases upper with
  | none =>
    -- as many copies as there must be, and a star
    have hlanguage : ({w | ∃ n, (∀ m ∈ lower, m ≤ n) ∧ (∀ m ∈ (none : Option Nat), n ≤ m) ∧
        w ∈ L ^ n} : Language Symbol) = L ^ lower.getD 0 * L∗ := by
      refine Language.ext fun w => Iff.trans (exists_congr fun n => ?_) mem_pow_mul_kstar.symm
      rw [hlower]
      simp
    rw [hlanguage]
    exact group (h.copies_star _).ofTerm
  | some upper =>
    -- one alternative for each number of copies
    have hlanguage : {w | ∃ n, (∀ m ∈ lower, m ≤ n) ∧ (∀ m ∈ some upper, n ≤ m) ∧ w ∈ L ^ n} =
        {w | ∃ n ∈ Shorthand.countDown (lower.getD 0) upper, w ∈ L ^ n} := by
      refine Set.ext fun w => exists_congr fun n => ?_
      rw [hlower, mem_countDown]
      simp [and_assoc]
    have hle : lower.getD 0 ≤ upper := by
      cases lower with
      | none => exact Nat.zero_le _
      | some m => exact hb m rfl upper rfl
    have hne : Shorthand.countDown (lower.getD 0) upper ≠ [] :=
      List.ne_nil_of_mem (mem_countDown.2 ⟨hle, le_refl _⟩)
    rw [hlanguage]
    refine alternatives hne fun n _ => ?_
    cases n with
    | zero =>
      rw [if_pos rfl, pow_zero]
      exact empty.ofBase.ofFactor
    | succ n =>
      rw [if_neg (Nat.succ_ne_zero n)]
      exact h.copies n

/-! ### Suffixes -/

theorem suffix_of_ne_star (h : Reading a symbols .factor qs L) {s : Suffix} (hs : s ≠ .star) :
    Reading a symbols .base (s.expand qs) (s.denote L) := by
  cases s with
  | star => exact absurd rfl hs
  | oneOrMore =>
    have hcopies := h.copies_star 1
    have hone : Piece.copies 1 qs = qs := List.append_nil qs
    rw [hone, pow_one] at hcopies
    exact group hcopies.ofTerm
  | atMostOnce => exact group (h.ofFactor.union empty.ofBase.ofFactor.ofTerm)
  | repeated b => exact h.repeated b.ordered

theorem suffix (h : Reading a symbols .factor qs L) (s : Suffix) :
    Reading a symbols .factor (s.expand qs) (s.denote L) := by
  by_cases hs : s = .star
  · subst hs
    exact h.star
  · exact (h.suffix_of_ne_star hs).ofBase

theorem suffixes (h : Reading a symbols .factor qs L) (ss : List Suffix) :
    Reading a symbols .factor (Suffix.expandAll ss qs) (Suffix.denoteAll ss L) := by
  induction ss generalizing qs L with
  | nil => exact h
  | cons s ss ih => exact ih (h.suffix s)

theorem suffixes_of_ne_star (h : Reading a symbols .base qs L) {ss : List Suffix}
    (hss : ∀ s ∈ ss, s ≠ .star) :
    Reading a symbols .base (Suffix.expandAll ss qs) (Suffix.denoteAll ss L) := by
  induction ss generalizing qs L with
  | nil => exact h
  | cons s ss ih =>
    obtain ⟨hs, hss⟩ := List.forall_mem_cons.1 hss
    exact ih (h.ofBase.suffix_of_ne_star hs) hss

end Reading

/-! ### All phrases -/

section

variable {a : Alphabet} (ha : a.Lacks (operatorChars ++ shorthandChars ++ specialChars))

include ha

theorem reading_bare {symbols : List Symbol} {c : Char} (hc : a.hasChar c = true) :
    Reading a symbols .base [bare c] {[Symbol.ofChar c]} := by
  have hop : isOperator c = false := by
    have h := isReserved_of_hasChar ha hc
    simp only [isReserved, Bool.or_eq_false_iff] at h
    exact h.1.1
  exact .atom (.literal c hc) (startsOperand_bare hop) (endsOperand_bare hop)

omit ha in
theorem reading_escaped {symbols : List Symbol} (c : Char) :
    Reading a symbols .base (grouped [escaped c]) {[Symbol.ofChar c]} :=
  .group (Reading.atom (.escaped c) rfl rfl).ofBase.ofFactor.ofTerm

theorem reading_literal {symbols : List Symbol} (c : Char) :
    Reading a symbols .base (Piece.literal a c) {[Symbol.ofChar c]} := by
  unfold Piece.literal
  by_cases hc : a.hasChar c = true
  · rw [if_pos hc]
    exact reading_bare ha hc
  · rw [if_neg hc]
    exact reading_escaped c

theorem reading_range {symbols : List Symbol} {low high : Char} (h : low ≤ high) :
    Reading a symbols .base
      (Piece.alternatives ((Shorthand.charsDown low high).map (Piece.literal a)))
      {w | ∃ c, low ≤ c ∧ c ≤ high ∧ w = [Symbol.ofChar c]} := by
  have hlanguage : {w | ∃ c, low ≤ c ∧ c ≤ high ∧ w = [Symbol.ofChar c]} =
      {w | ∃ c ∈ Shorthand.charsDown low high, w ∈ ({[Symbol.ofChar c]} : Language Symbol)} := by
    ext w
    exact exists_congr fun c => by rw [mem_charsDown, and_assoc]; rfl
  have hne : Shorthand.charsDown low high ≠ [] :=
    List.ne_nil_of_mem (mem_charsDown.2 ⟨Char.le_refl low, h⟩)
  rw [hlanguage]
  exact Reading.alternatives hne fun c _ => (reading_literal ha c).ofBase.ofFactor

omit ha in
theorem IsOperand.head_ne {qs : List Piece} (h : IsOperand qs) :
    ∀ q ∈ qs.head?, q ≠ bare '!' := by
  rintro _ hq rfl
  exact absurd (h.eq_opening rfl hq) (by decide)

omit ha in
theorem Reading.stars {symbols : List Symbol} {qs : List Piece} {L : Language Symbol}
    (h : Reading a symbols .factor qs L) (n : Nat) :
    Reading a symbols .factor (qs ++ List.replicate n (bare '*'))
      (Suffix.denoteAll (List.replicate n .star) L) := by
  induction n generalizing qs L with
  | zero =>
    rw [List.replicate_zero, List.append_nil]
    exact h
  | succ n ih =>
    have hsucc : qs ++ List.replicate (n + 1) (bare '*') =
        qs ++ [bare '*'] ++ List.replicate n (bare '*') := by
      rw [List.append_assoc]
      rfl
    rw [hsucc]
    exact ih h.star

/-- The canonical form of a phrase is a spelling of its language. -/
theorem Source.reading {l : Level} (s : Source a l) :
    Reading a a.operating l s.pieces s.denote := by
  induction s with
  | literal c hc => exact reading_bare ha hc
  | escaped c => exact reading_escaped c
  | empty => exact .empty
  | any => exact .atom .any rfl rfl
  | range low high h => exact reading_range ha h
  | group e ih => exact ih.group
  | suffixed p ss ih => exact ih.ofBase.suffixes ss
  | negated k hk p ss hss stars ih =>
    have hp : IsOperand (Suffix.expandAll ss p.pieces) :=
      IsOperand.expandAll (p.standsAlone_pieces ha) ss
    exact ((ih.suffixes_of_ne_star hss).negations hp.head_ne k).stars stars
  | ofFactor f ih => exact ih.ofFactor
  | concat f marked t ihf iht =>
    cases marked with
    | false =>
      have h := ihf.concat iht
      rwa [← List.append_nil f.pieces] at h
    | true => exact ihf.concat_marked iht
  | ofTerm t ih => exact ih.ofTerm
  | union t e iht ihe => exact iht.union ihe

end

end RegexAutomata
