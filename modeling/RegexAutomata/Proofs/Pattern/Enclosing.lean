/-
Patterns in parentheses.

What a pattern becomes does not change when it is put into parentheses, whether or not it follows
the source grammar: the parentheses are put around its pieces (`expands_grouped`), around its
canonical form (`canonicalPieces_grouped`) and around its tokens (`ReadsAs.grouped`).

* `expands_of_canonical`, `canonical_of_expands` — the canonical form, in terms of pieces;
* `readsAs_append` — reading a text does not depend on where it starts and what comes after;
* `nested_of_spells` — pieces are nested if the tokens of their canonical form are balanced.
-/
import RegexAutomata.Proofs.Pattern.Context
import RegexAutomata.Proofs.Pattern.Derivation
import RegexAutomata.Proofs.Pattern.Phrases

namespace RegexAutomata

open Piece

/-! ### Canonical forms -/

section

variable {a : Alphabet} {t c : Text} {qs : List Piece}

theorem canonical_of_expands (ht : Expands a t qs) (hqs : bare escapeMark ∉ qs) (hne : t ≠ []) :
    canonical a t = .ok (join (canonicalPieces qs)) := by
  rw [canonical, List.isEmpty_eq_false_iff.2 hne, ht.expand_eq]
  show Except.ok (join (joinOperands (split (dropDoubleNegations (join qs))))) = _
  rw [split_dropDoubleNegations, split_join_of_complete hqs]
  rfl

theorem split_join_canonicalPieces (hqs : bare escapeMark ∉ qs) :
    split (join (canonicalPieces qs)) = canonicalPieces qs := by
  have hproper := proper_joinOperands (proper_cancelNegations (proper_split (join qs)))
  rw [split_join_of_complete hqs] at hproper
  exact split_join hproper

theorem expands_of_canonical (hne : t ≠ []) (h : canonical a t = .ok c) :
    ∃ qs, bare escapeMark ∉ qs ∧ Expands a t qs ∧ c = join (canonicalPieces qs) := by
  cases hexpand : Shorthand.expand a t with
  | error e =>
    rw [canonical, List.isEmpty_eq_false_iff.2 hne, hexpand] at h
    cases h
  | ok u =>
    obtain ⟨qs, hqs, _, hexpands⟩ := expands_of_expand hexpand
    exact ⟨qs, hqs, hexpands, Except.ok.inj (h.symm.trans (canonical_of_expands hexpands hqs hne))⟩

theorem expands_grouped (ht : Expands a t qs) (hqs : bare escapeMark ∉ qs) :
    Expands a ('(' :: t ++ [')']) (grouped qs) := by
  have hopening : Expands a ['('] [bare '('] := expands_untouched ⟨by decide, rfl⟩
  have hclosing : Expands a [')'] [bare ')'] := expands_untouched ⟨by decide, rfl⟩
  exact (hopening.append (by decide) ht).append (by simpa using ⟨by decide, hqs⟩) hclosing

theorem complete_grouped (hqs : bare escapeMark ∉ qs) : bare escapeMark ∉ grouped qs := by
  simpa [grouped, escapeMark] using hqs

/-! ### Pieces -/

/-- What starts no operand is put behind the others as it is. -/
theorem joinOperands_concat (ps : List Piece) {q : Piece} (hq : q.startsOperand = false) :
    joinOperands (ps ++ [q]) = joinOperands ps ++ [q] := by
  rcases List.eq_nil_or_concat ps with rfl | ⟨init, p, rfl⟩
  · rfl
  · have hseparator : separator p q = [] := by
      rw [separator, hq, Bool.and_false]
      rfl
    rw [List.concat_eq_append, List.append_assoc]
    show joinOperands (init ++ p :: q :: []) = _
    rw [joinOperands_append, hseparator]
    rfl

theorem canonicalPieces_grouped (qs : List Piece) :
    canonicalPieces (grouped qs) = grouped (canonicalPieces qs) := by
  have hclosing : cancelNegations (qs ++ [bare ')']) = cancelNegations qs ++ [bare ')'] :=
    cancelNegations_append_cons (by decide) qs []
  show canonicalPieces (bare '(' :: (qs ++ [bare ')'])) = _
  rw [canonicalPieces_cons (by decide) rfl, canonicalPieces, hclosing, joinOperands_concat _ rfl]
  rfl

theorem canonicalPieces_negated_grouped (qs : List Piece) :
    canonicalPieces (bare '!' :: grouped qs) = bare '!' :: grouped (canonicalPieces qs) := by
  have hopening : ∀ r ∈ (grouped qs).head?, r ≠ bare '!' := by
    rintro _ ⟨⟩
    decide
  have hone := canonicalPieces_replicate_append hopening 1
  rw [if_pos (by decide), canonicalPieces_grouped] at hone
  exact hone

end

/-- The canonical form of a pattern in parentheses, and with a negation before them. -/
theorem canonical_grouped {a : Alphabet} {t : Text} {qs : List Piece} (ht : Expands a t qs)
    (hqs : bare escapeMark ∉ qs) :
    canonical a ('(' :: t ++ [')']) = .ok ('(' :: join (canonicalPieces qs) ++ [')']) ∧
      canonical a ('!' :: '(' :: t ++ [')']) =
        .ok ('!' :: ('(' :: join (canonicalPieces qs) ++ [')'])) := by
  have hgroup := expands_grouped ht hqs
  have hnegated : Expands a ('!' :: '(' :: t ++ [')']) (bare '!' :: grouped qs) :=
    (expands_untouched (a := a) (c := '!') ⟨by decide, rfl⟩).append (by decide) hgroup
  have hcomplete : bare escapeMark ∉ bare '!' :: grouped qs := by
    rw [List.mem_cons, not_or]
    exact ⟨by decide, complete_grouped hqs⟩
  constructor
  · rw [canonical_of_expands hgroup (complete_grouped hqs) (List.cons_ne_nil _ _),
      canonicalPieces_grouped, join_grouped]
  · rw [canonical_of_expands hnegated hcomplete (List.cons_ne_nil _ _),
      canonicalPieces_negated_grouped, join_cons, join_grouped]
    rfl

/-! ### Tokens -/

/-- The text is read as these tokens, whatever index it starts at. -/
def ReadsAs (a : Alphabet) (t : Text) (ts : List Token) : Prop :=
  ∀ k, (scanFrom a k t).stop = none ∧ (scanFrom a k t).tokens.map (·.2) = ts

section

variable {a : Alphabet} {t u : Text} {ts us : List Token} {c : Char}

theorem readsAs_nil (a : Alphabet) : ReadsAs a [] [] := fun _ => ⟨rfl, rfl⟩

theorem ReadsAs.escaped (h : ReadsAs a t ts) (c : Char) :
    ReadsAs a (escapeMark :: c :: t) (.atom (.one (Symbol.ofChar c)) :: ts) := by
  intro k
  obtain ⟨hstop, htokens⟩ := h (k + 2)
  rw [scanFrom_escape]
  exact ⟨hstop, congrArg _ htokens⟩

theorem ReadsAs.cons (h : ReadsAs a t ts) (hc : c ≠ escapeMark) {tk : Token}
    (htk : Token.ofChar? a c = some tk) : ReadsAs a (c :: t) (tk :: ts) := by
  intro k
  obtain ⟨hstop, htokens⟩ := h (k + 1)
  rw [scanFrom_cons k hc htk]
  exact ⟨hstop, congrArg _ htokens⟩

/-- What was read without a fault is read in the same way before another text. -/
theorem readsAs_append {k : Nat} (h : (scanFrom a k t).stop = none) (hu : ReadsAs a u us) :
    ReadsAs a (t ++ u) ((scanFrom a k t).tokens.map (·.2) ++ us) := by
  fun_induction scanFrom a k t with
  | case1 => exact hu
  | case2 k => cases h
  | case3 k d rest ih => exact (ih h).escaped d
  | case4 k c rest hc tk htk ih => exact (ih h).cons hc htk
  | case5 k c rest hc htk => cases h

theorem ofChar?_operator (o : Operator) (ho : a.hasChar o.char = false) :
    Token.ofChar? a o.char = some (.op o) := by
  unfold Token.ofChar?
  rw [if_neg (by cases o <;> decide), if_neg (by cases o <;> decide),
    if_neg (by rw [ho]; decide), ofChar?_char]
  rfl

theorem ReadsAs.operator (h : ReadsAs a t ts) (o : Operator) (ho : a.hasChar o.char = false) :
    ReadsAs a (o.char :: t) (.op o :: ts) :=
  h.cons (by cases o <;> decide) (ofChar?_operator o ho)

/-- A text in parentheses is read as its tokens in parentheses. -/
theorem ReadsAs.grouped (ha : a.Lacks ['(', ')']) (h : (scan a t).stop = none) :
    ReadsAs a ('(' :: t ++ [')'])
      (.op .opening :: ((scan a t).tokens.map (·.2) ++ [.op .closing])) := by
  have hclosing : ReadsAs a [')'] [.op .closing] :=
    (readsAs_nil a).operator .closing (ha _ (by decide))
  exact (readsAs_append h hclosing).operator .opening (ha _ (by decide))

end

/-! ### Balanced parentheses -/

section

variable {a : Alphabet} {ps : List Piece} {ts : List Token}

/-- Only parentheses count, so pieces that begin alike close alike. -/
theorem closes_congr {ps qs : List Piece} (h : ∀ d, Closes d ps ↔ Closes d qs) (p : Piece)
    (d : Nat) : Closes d (p :: ps) ↔ Closes d (p :: qs) := by
  simp only [Closes, h]

theorem closes_cancelNegations (ps : List Piece) (d : Nat) :
    Closes d (cancelNegations ps) ↔ Closes d ps := by
  fun_induction cancelNegations ps generalizing d with
  | case1 => rfl
  | case2 p => rfl
  | case3 p q rest hpq ih =>
    obtain ⟨rfl, rfl⟩ := hpq
    rw [ih, closes_cons (by decide) (by decide), closes_cons (by decide) (by decide)]
  | case4 p q rest hpq ih => exact closes_congr ih p d

theorem closes_joinOperands (ps : List Piece) (d : Nat) :
    Closes d (joinOperands ps) ↔ Closes d ps := by
  fun_induction joinOperands ps generalizing d with
  | case1 => rfl
  | case2 p => rfl
  | case3 p q rest hpq ih =>
    refine closes_congr (fun d => ?_) p d
    rw [closes_cons (by decide) (by decide), ih]
  | case4 p q rest hpq ih => exact closes_congr ih p d

/-- Parentheses of pieces are parentheses of tokens. -/
theorem closes_of_spells (ha : a.Lacks operatorChars) (h : List.Forall₂ (Piece.Spells a) ps ts)
    (d : Nat) : Closes d ps ↔ Balanced d ts := by
  induction h generalizing d with
  | nil => rfl
  | @cons p t ps ts hp _ ih =>
    cases hp with
    | escaped c => exact (closes_cons (p := .escaped c) nofun nofun).trans (ih d)
    | literal c hc =>
      have hopening : c ≠ '(' := ha.ne hc (by decide)
      have hclosing : c ≠ ')' := ha.ne hc (by decide)
      exact (closes_cons (fun h => hopening (bare.inj h)) fun h => hclosing (bare.inj h)).trans
        (ih d)
    | empty => exact (closes_cons (by decide) (by decide)).trans (ih d)
    | any => exact (closes_cons (by decide) (by decide)).trans (ih d)
    | op o =>
      cases o with
      | opening => exact ih (d + 1)
      | closing => exact and_congr_right fun _ => ih (d - 1)
      | _ => exact (closes_cons (by decide) (by decide)).trans (ih d)

/-- Pieces whose canonical form spells balanced tokens are nested. -/
theorem nested_of_spells (ha : a.Lacks operatorChars)
    (h : List.Forall₂ (Piece.Spells a) (canonicalPieces ps) ts) (hts : Balanced 0 ts) :
    Nested ps := by
  have hcloses : Closes 0 ps := by
    rw [← closes_cancelNegations, ← closes_joinOperands]
    exact (closes_of_spells ha h 0).2 hts
  exact hcloses.nested

end

end RegexAutomata
