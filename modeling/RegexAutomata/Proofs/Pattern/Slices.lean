/-
Tokens and the slices of a text.

A token stands at the index at which its piece of the text starts.  So the indices of the tokens cut
the text into the pieces, as far as it could be read, and nothing is left out between them.

* `slices_offsets` — cutting a text at the indices of its pieces;
* `tiles_scan` — the slices between the tokens of any text;
* `scan_slices` — reading gives back what was printed, and what was read can be printed again.
-/
import RegexAutomata.Proofs.Pattern.Faults
import RegexAutomata.Proofs.Pattern.Grammar

namespace RegexAutomata

open Piece

variable {a : Alphabet} {ps : List Piece} {ts : List Token} {t : Text}

/-! ### Slices -/

/-- The slices of a text between consecutive indices, the last one up to a limit. -/
def slices (t : Text) (limit : Nat) : List Nat → List Text
  | [] => []
  | k :: ks => t.extract k (ks.headD limit) :: slices t limit ks

/-- A piece ends where the next one starts, and the last one at the limit. -/
theorem headD_offsets (k : Nat) (ps : List Piece) : (offsets k ps).headD (k + width ps) = k := by
  cases ps with
  | nil => rfl
  | cons p ps => rfl

theorem extract_middle (before part behind : Text) :
    (before ++ part ++ behind).extract before.length (before.length + part.length) = part := by
  rw [List.extract_eq_take_drop, List.append_assoc, List.drop_left, Nat.add_sub_cancel_left,
    List.take_left]

/-- Cutting a text at the indices of pieces gives the pieces. -/
theorem slices_offsets (before behind : Text) (ps : List Piece) :
    slices (before ++ join ps ++ behind) (before.length + width ps) (offsets before.length ps) =
      ps.map text := by
  induction ps generalizing before with
  | nil => rfl
  | cons p ps ih =>
    have hlength : (before ++ p.text).length = before.length + p.size := by
      rw [List.length_append, length_text]
    have hlimit : before.length + width (p :: ps) = before.length + p.size + width ps :=
      (Nat.add_assoc _ _ _).symm
    have htext : before ++ join (p :: ps) ++ behind = before ++ p.text ++ join ps ++ behind := by
      simp only [join_cons, List.append_assoc]
    have hrest := ih (before ++ p.text)
    rw [hlength] at hrest
    have hfirst : (before ++ p.text ++ join ps ++ behind).extract before.length
        (before.length + p.size) = p.text := by
      rw [List.append_assoc _ (join ps), ← length_text]
      exact extract_middle before p.text (join ps ++ behind)
    rw [htext, hlimit, offsets, slices, headD_offsets, hfirst, hrest]
    rfl

/-! ### Reading -/

/-- The text is what a token is printed as: a literal may stand bare or behind an escape marker. -/
def Token.IsPrinted (a : Alphabet) (u : Text) (t : Token) : Prop :=
  ∃ p, Piece.Spells a p t ∧ p.text = u

/-- Where the reading of a text has ended: at what could not be read, or with the text. -/
def Scanned.limit (s : Scanned) (t : Text) : Nat :=
  match s.stop with
  | none => t.length
  | some f => f.position

theorem isPrinted_of_spells (h : List.Forall₂ (Piece.Spells a) ps ts) :
    List.Forall₂ (Token.IsPrinted a) (ps.map text) ts := by
  rw [List.forall₂_map_left_iff]
  exact h.imp fun p _ hp => ⟨p, hp, rfl⟩

/-- The indices of the tokens cut the text before a limit into slices, which leave nothing out and are
what the tokens are printed as. -/
structure Scanned.Tiles (a : Alphabet) (s : Scanned) (t : Text) (limit : Nat) : Prop where
  whole : (slices t limit (s.tokens.map (·.1))).flatten = t.take limit
  printed : List.Forall₂ (Token.IsPrinted a) (slices t limit (s.tokens.map (·.1)))
    (s.tokens.map (·.2))

/-- The tokens of a text cut it, as far as it could be read. -/
theorem tiles_scan (a : Alphabet) (t : Text) : (scan a t).Tiles a t ((scan a t).limit t) := by
  set s := scan a t with hs
  obtain ⟨ps, rest, ts, hsplit, hspells, htokens, hend, hstop⟩ := scanFrom_pieces a 0 t
  have htext : t = join ps ++ join rest := by rw [← join_append, ← hsplit, join_split]
  have hlimit : s.limit t = width ps := by
    cases hcase : s.stop with
    | none =>
      have hnil : rest = [] := hend hcase
      rw [Scanned.limit, hcase, ← length_join, htext, hnil, join_nil, List.append_nil]
    | some f =>
      rw [Scanned.limit, hcase]
      exact (hstop f hcase).2.1.trans (Nat.zero_add _)
  have hindices : s.tokens.map (·.1) = offsets 0 ps := by
    show (scanFrom a 0 t).tokens.map (·.1) = _
    rw [htokens]
    exact List.map_fst_zip (by rw [length_offsets, hspells.length_eq])
  have hparts : slices t (s.limit t) (s.tokens.map (·.1)) = ps.map text := by
    have hcut := slices_offsets [] (join rest) ps
    rw [List.nil_append, ← htext, List.length_nil, Nat.zero_add] at hcut
    rw [hlimit, hindices, hcut]
  have hread : s.tokens.map (·.2) = ts := by
    show (scanFrom a 0 t).tokens.map (·.2) = _
    rw [htokens, map_snd_zip_offsets hspells]
  refine ⟨?_, ?_⟩
  · rw [hparts, hlimit, ← length_join, htext, List.take_left]
    exact List.flatMap_def.symm
  · rw [hparts, hread]
    exact isPrinted_of_spells hspells

/-! ### Printing -/

/-- Tokens whose literals are single characters can be printed. -/
theorem exists_pieces (a : Alphabet)
    (h : ∀ s, Token.atom (.one s) ∈ ts → ∃ c, s = Symbol.ofChar c) :
    ∃ ps, List.Forall₂ (Piece.Spells a) ps ts := by
  induction ts with
  | nil => exact ⟨[], .nil⟩
  | cons t ts ih =>
    obtain ⟨ps, hps⟩ := ih fun s hs => h s (List.mem_cons_of_mem _ hs)
    obtain ⟨p, hp⟩ : ∃ p, Piece.Spells a p t := by
      cases t with
      | op o => exact ⟨_, .op o⟩
      | atom x =>
        cases x with
        | empty => exact ⟨_, .empty⟩
        | any => exact ⟨_, .any⟩
        | one s =>
          obtain ⟨c, rfl⟩ := h s (.head _)
          exact ⟨_, .escaped c⟩
    exact ⟨p :: ps, .cons hp hps⟩

/-- The index of a piece is the length of what comes before it. -/
theorem zip_offsets (k : Nat) (h : ps.length = ts.length) :
    (offsets k ps).zip ts = ts.mapIdx fun i t => (k + (join (ps.take i)).length, t) := by
  induction ps generalizing k ts with
  | nil =>
    obtain rfl : ts = [] := List.length_eq_zero_iff.1 h.symm
    rfl
  | cons p ps ih =>
    cases ts with
    | nil => cases h
    | cons t ts =>
      rw [offsets, List.zip_cons_cons, ih (k + p.size) (Nat.succ.inj h), List.mapIdx_cons]
      simp [length_text, Nat.add_assoc]

/-- Printing tokens and reading the text gives the tokens back, each at the length of what was
printed before it.  The other way round, the tokens of any text cut it into what they are printed as:
the whole text if it can be read, and else all that comes before the index of the fault. -/
theorem scan_slices (a : Alphabet) (ha : a.Lacks (operatorChars ++ specialChars)) :
    (∀ ts : List Token, (∀ s, Token.atom (.one s) ∈ ts → ∃ c, s = Symbol.ofChar c) →
        (∃ ps, List.Forall₂ (Piece.Spells a) ps ts) ∧
          ∀ ps, List.Forall₂ (Piece.Spells a) ps ts →
            scan a (join ps) = ⟨ts.mapIdx fun i t => ((join (ps.take i)).length, t), none⟩) ∧
      (∀ t, (scan a t).stop = none → (scan a t).Tiles a t t.length) ∧
      ∀ t f, (scan a t).stop = some f →
        f.position < t.length ∧ (scan a t).Tiles a t f.position := by
  refine ⟨fun ts hts => ⟨exists_pieces a hts, fun ps hps => ?_⟩, fun t hstop => ?_,
    fun t f hstop => ?_⟩
  · rw [scan, scanFrom_of_spells ha hps 0, zip_offsets 0 hps.length_eq]
    simp only [Nat.zero_add]
  · have hlimit : (scan a t).limit t = t.length := by rw [Scanned.limit, hstop]
    rw [← hlimit]
    exact tiles_scan a t
  · have hlimit : (scan a t).limit t = f.position := by rw [Scanned.limit, hstop]
    obtain ⟨_, rest, _, hsplit, _, _, _, hfault⟩ := scanFrom_pieces a 0 t
    obtain ⟨hne, hposition, _⟩ := hfault f hstop
    have hpositive := width_pos hne
    refine ⟨?_, hlimit ▸ tiles_scan a t⟩
    rw [hposition, ← join_split t, length_join, hsplit, width_append]
    omega

/-- An escaped star and an escaped marker, then a star, then a marker that nothing follows. -/
theorem scan_slices_escapes :
    (Alphabet.ofText ['a']).Lacks (operatorChars ++ specialChars) ∧
      scan (.ofText ['a']) "/*//*".toList =
        ⟨[(0, .atom (.one "*")), (2, .atom (.one "/")), (4, .op .star)], none⟩ ∧
      (scan (.ofText ['a']) "/*//*/".toList).stop = some ⟨5, .danglingEscape⟩ ∧
      (slices "/*//*/".toList 5
        ((scan (.ofText ['a']) "/*//*/".toList).tokens.map (·.1))).flatten = "/*//*".toList := by
  have hlacks : (Alphabet.ofText ['a']).Lacks (operatorChars ++ specialChars) := by decide
  have hprinted : List.Forall₂ (Piece.Spells (.ofText ['a']))
      [.escaped '*', .escaped '/', .bare '*'] [.atom (.one "*"), .atom (.one "/"), .op .star] :=
    .cons (.escaped '*') (.cons (.escaped '/') (.cons (.op .star) .nil))
  have hliterals : ∀ s, Token.atom (.one s) ∈
      ([.atom (.one "*"), .atom (.one "/"), .op .star] : List Token) → ∃ c, s = Symbol.ofChar c := by
    intro s hs
    simp only [List.mem_cons, Token.atom.injEq, Atom.one.injEq, reduceCtorEq, List.not_mem_nil,
      or_false] at hs
    rcases hs with rfl | rfl
    · exact ⟨'*', rfl⟩
    · exact ⟨'/', rfl⟩
  have hstop : (scan (.ofText ['a']) "/*//*/".toList).stop = some ⟨5, .danglingEscape⟩ := by
    decide +kernel
  obtain ⟨hprint, -, hfault⟩ := scan_slices (.ofText ['a']) hlacks
  exact ⟨hlacks, (hprint _ hliterals).2 _ hprinted, hstop, (hfault _ _ hstop).2.whole⟩

end RegexAutomata
