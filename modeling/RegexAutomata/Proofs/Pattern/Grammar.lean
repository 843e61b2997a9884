/-
The grammar of canonical patterns.

    expr   := term ('|' term)*          factor := '!'? base '*'*
    term   := factor ('&' factor)*      base   := atom | '(' expr ')'

`Canon` holds the syntax trees of the grammar.  A tree is printed as tokens (`Canon.tokens`) and
denotes a language (`Canon.denote`).  Tokens in turn are spelled by pieces of a text: a literal
stands bare if the alphabet has it, or behind an escape marker (`Piece.Spells`).

* `scanFrom_pieces` — whatever is read is the spelling of the tokens read, each at the index of its
  piece;
* `scan_of_spells` — reading the spelling of tokens gives the tokens, if the alphabet has neither
  operators nor marks.
-/
import RegexAutomata.Pattern.Token
import RegexAutomata.Proofs.Automaton.Determinization
import RegexAutomata.Proofs.Automaton.Operators
import RegexAutomata.Proofs.Pattern.Pieces

open scoped Computability

namespace RegexAutomata

/-! ### Syntax trees -/

/-- The four kinds of phrase of the grammar. -/
inductive Level where
  | base
  | factor
  | term
  | expr
deriving DecidableEq, Repr

/-- The syntax trees of canonical patterns. -/
inductive Canon : Level → Type
  | atom (a : Atom) : Canon .base
  | group (e : Canon .expr) : Canon .base
  | ofBase (b : Canon .base) : Canon .factor
  | complement (b : Canon .base) : Canon .factor
  | star (f : Canon .factor) : Canon .factor
  | ofFactor (f : Canon .factor) : Canon .term
  | concat (f : Canon .factor) (t : Canon .term) : Canon .term
  | ofTerm (t : Canon .term) : Canon .expr
  | union (t : Canon .term) (e : Canon .expr) : Canon .expr

namespace Canon

/-- The tokens of a tree. -/
def tokens {l : Level} : Canon l → List Token
  | atom a => [.atom a]
  | group e => .op .opening :: e.tokens ++ [.op .closing]
  | ofBase b => b.tokens
  | complement b => .op .complement :: b.tokens
  | star f => f.tokens ++ [.op .star]
  | ofFactor f => f.tokens
  | concat f t => f.tokens ++ .op .concat :: t.tokens
  | ofTerm t => t.tokens
  | union t e => t.tokens ++ .op .union :: e.tokens

section

variable (ts : List Token)

theorem group_tokens_append (e : Canon .expr) :
    (group e).tokens ++ ts = .op .opening :: (e.tokens ++ .op .closing :: ts) := by
  simp [tokens]

theorem star_tokens_append (f : Canon .factor) :
    (star f).tokens ++ ts = f.tokens ++ .op .star :: ts := by
  simp [tokens]

theorem concat_tokens_append (f : Canon .factor) (t : Canon .term) :
    (concat f t).tokens ++ ts = f.tokens ++ .op .concat :: (t.tokens ++ ts) := by
  simp [tokens]

theorem union_tokens_append (t : Canon .term) (e : Canon .expr) :
    (union t e).tokens ++ ts = t.tokens ++ .op .union :: (e.tokens ++ ts) := by
  simp [tokens]

end

/-- The language of a tree, where complements are taken over given symbols. -/
def denote {l : Level} (symbols : List Symbol) : Canon l → Language Symbol
  | atom a => a.language
  | group e => e.denote symbols
  | ofBase b => b.denote symbols
  | complement b => complementIn symbols (b.denote symbols)
  | star f => (f.denote symbols)∗
  | ofFactor f => f.denote symbols
  | concat f t => f.denote symbols * t.denote symbols
  | ofTerm t => t.denote symbols
  | union t e => t.denote symbols + e.denote symbols

end Canon

/-! ### Spelling -/

/-- A piece of a text that can stand for a token. -/
inductive Piece.Spells (a : Alphabet) : Piece → Token → Prop
  | escaped (c : Char) : Spells a (.escaped c) (.atom (.one (Symbol.ofChar c)))
  | literal (c : Char) (h : a.hasChar c = true) :
    Spells a (.bare c) (.atom (.one (Symbol.ofChar c)))
  | empty : Spells a (.bare emptyMark) (.atom .empty)
  | any : Spells a (.bare anyMark) (.atom .any)
  | op (o : Operator) : Spells a (.bare o.char) (.op o)

/-- The text is made of pieces that stand for the tokens, one for each. -/
def Spells (a : Alphabet) (t : Text) (ts : List Token) : Prop :=
  ∃ ps, Piece.join ps = t ∧ List.Forall₂ (Piece.Spells a) ps ts

/-- The alphabet has none of these characters. -/
def Alphabet.Lacks (a : Alphabet) (cs : List Char) : Prop := ∀ c ∈ cs, a.hasChar c = false

instance (a : Alphabet) (cs : List Char) : Decidable (a.Lacks cs) :=
  List.decidableBAll (fun c => a.hasChar c = false) cs

theorem Alphabet.Lacks.ne {a : Alphabet} {cs : List Char} (h : a.Lacks cs) {c d : Char}
    (hc : a.hasChar c = true) (hd : d ∈ cs) : c ≠ d := by
  rintro rfl
  rw [h c hd] at hc
  cases hc

theorem Alphabet.Lacks.contains {a : Alphabet} {cs : List Char} (h : a.Lacks cs) {c : Char}
    (hc : a.hasChar c = true) : cs.contains c = false := by
  refine eq_false_of_ne_true fun hcs => ?_
  exact h.ne hc (List.contains_iff_mem.1 hcs) rfl

theorem Alphabet.Lacks.append {a : Alphabet} {cs ds : List Char} :
    a.Lacks (cs ++ ds) ↔ a.Lacks cs ∧ a.Lacks ds :=
  List.forall_mem_append

theorem Alphabet.Lacks.operators {a : Alphabet}
    (h : a.Lacks (operatorChars ++ shorthandChars ++ specialChars)) : a.Lacks operatorChars :=
  (append.1 (append.1 h).1).1

theorem Alphabet.Lacks.operatorsAndMarks {a : Alphabet}
    (h : a.Lacks (operatorChars ++ shorthandChars ++ specialChars)) :
    a.Lacks (operatorChars ++ specialChars) :=
  append.2 ⟨h.operators, (append.1 h).2⟩

variable {a : Alphabet}

theorem ofChar?_char (o : Operator) : Operator.ofChar? o.char = some o := by
  cases o <;> rfl

theorem char_of_ofChar? {c : Char} {o : Operator} (h : Operator.ofChar? c = some o) :
    o.char = c := by
  unfold Operator.ofChar? at h
  repeat' split at h
  all_goals first
    | (cases h; simp_all [Operator.char])
    | cases h

theorem spells_of_ofChar? {c : Char} {t : Token} (h : Token.ofChar? a c = some t) :
    Piece.Spells a (.bare c) t := by
  unfold Token.ofChar? at h
  split at h
  · rename_i hc
    cases h
    exact hc ▸ .empty
  · split at h
    · rename_i hc
      cases h
      exact hc ▸ .any
    · split at h
      · rename_i hc
        cases h
        exact .literal c hc
      · obtain ⟨o, ho, rfl⟩ := Option.map_eq_some_iff.1 h
        exact char_of_ofChar? ho ▸ .op o

/-- A character that is neither in the alphabet nor an operator nor a mark stands for no token. -/
theorem not_spells_bare {c : Char} (hc : a.hasChar c = false) (hoperator : isOperator c = false)
    (hspecial : isSpecial c = false) (t : Token) : ¬ Piece.Spells a (.bare c) t := by
  intro h
  cases h with
  | literal _ h =>
    rw [hc] at h
    cases h
  | empty => cases hspecial
  | any => cases hspecial
  | op o => cases o <;> cases hoperator

theorem exists_spells_of_mem {p : Piece} {ps : List Piece} {ts : List Token}
    (h : List.Forall₂ (Piece.Spells a) ps ts) (hp : p ∈ ps) : ∃ t, Piece.Spells a p t := by
  induction h with
  | nil => cases hp
  | cons hspells _ ih =>
    rcases List.mem_cons.1 hp with rfl | hp
    · exact ⟨_, hspells⟩
    · exact ih hp

theorem scanFrom_escape (k : Nat) (c : Char) (t : Text) :
    scanFrom a k (escapeMark :: c :: t) =
      (scanFrom a (k + 2) t).cons k (.atom (.one (Symbol.ofChar c))) := by
  rw [scanFrom.eq_def]
  exact if_pos rfl

theorem scanFrom_cons (k : Nat) {c : Char} (hc : c ≠ escapeMark) {tk : Token}
    (h : Token.ofChar? a c = some tk) (t : Text) :
    scanFrom a k (c :: t) = (scanFrom a (k + 1) t).cons k tk := by
  rw [scanFrom.eq_def]
  show (if c = escapeMark then _ else _) = _
  rw [if_neg hc, h]

/-- The indices at which pieces start, if the first one starts at `k`. -/
def Piece.offsets (k : Nat) : List Piece → List Nat
  | [] => []
  | p :: ps => k :: offsets (k + p.size) ps

theorem Piece.length_offsets (k : Nat) (ps : List Piece) : (offsets k ps).length = ps.length := by
  induction ps generalizing k with
  | nil => rfl
  | cons p ps ih => exact congrArg Nat.succ (ih (k + p.size))

theorem Piece.exists_of_mem_offsets {i k : Nat} {ps : List Piece} (h : i ∈ offsets k ps) :
    ∃ qs rs, ps = qs ++ rs ∧ rs ≠ [] ∧ i = k + width qs := by
  induction ps generalizing k with
  | nil => cases h
  | cons p ps ih =>
    rcases List.mem_cons.1 h with rfl | h
    · exact ⟨[], p :: ps, rfl, List.cons_ne_nil p ps, rfl⟩
    · obtain ⟨qs, rs, rfl, hne, rfl⟩ := ih h
      exact ⟨p :: qs, rs, rfl, hne, Nat.add_assoc k p.size _⟩

/-- The tokens that are read are spelled by pieces of the text, and their indices are those of the
pieces.  Reading stops at the first piece that is left, if there is one. -/
theorem scanFrom_pieces (a : Alphabet) (k : Nat) (t : Text) :
    ∃ ps rest ts, Piece.split t = ps ++ rest ∧ List.Forall₂ (Piece.Spells a) ps ts ∧
      (scanFrom a k t).tokens = (Piece.offsets k ps).zip ts ∧
      ((scanFrom a k t).stop = none → rest = []) ∧
      ∀ s ∈ (scanFrom a k t).stop,
        rest ≠ [] ∧ s.position = k + Piece.width ps ∧ s.fault.kind = .unsupportedSymbol := by
  fun_induction scanFrom a k t with
  | case1 => exact ⟨[], [], [], rfl, .nil, rfl, fun _ => rfl, nofun⟩
  | case2 k =>
    refine ⟨[], _, [], rfl, .nil, rfl, nofun, ?_⟩
    rintro _ ⟨⟩
    exact ⟨List.cons_ne_nil _ _, rfl, rfl⟩
  | case3 k d rest ih =>
    obtain ⟨ps, qs, ts, hsplit, hspells, htokens, hend, hstop⟩ := ih
    refine ⟨.escaped d :: ps, qs, _ :: ts, ?_, .cons (.escaped d) hspells, ?_, hend, ?_⟩
    · rw [Piece.split_escape, hsplit]
      rfl
    · exact congrArg (List.cons _) htokens
    · intro s hs
      obtain ⟨hne, hposition, hkind⟩ := hstop s hs
      exact ⟨hne, hposition.trans (Nat.add_assoc k 2 _), hkind⟩
  | case4 k c rest hc t ht ih =>
    obtain ⟨ps, qs, ts, hsplit, hspells, htokens, hend, hstop⟩ := ih
    refine ⟨.bare c :: ps, qs, t :: ts, ?_, .cons (spells_of_ofChar? ht) hspells, ?_, hend, ?_⟩
    · rw [Piece.split_cons hc, hsplit]
      rfl
    · exact congrArg (List.cons _) htokens
    · intro s hs
      obtain ⟨hne, hposition, hkind⟩ := hstop s hs
      exact ⟨hne, hposition.trans (Nat.add_assoc k 1 _), hkind⟩
  | case5 k c rest hc ht =>
    refine ⟨[], Piece.split (c :: rest), [], rfl, .nil, rfl, nofun, ?_⟩
    rintro _ ⟨⟩
    rw [Piece.split_cons hc]
    exact ⟨List.cons_ne_nil _ _, rfl, rfl⟩

theorem map_snd_zip_offsets {ps : List Piece} {ts : List Token}
    (h : List.Forall₂ (Piece.Spells a) ps ts) (k : Nat) :
    ((Piece.offsets k ps).zip ts).map (·.2) = ts :=
  List.map_snd_zip (by rw [Piece.length_offsets, h.length_eq])

/-- What is read without a fault is the spelling of the tokens read. -/
theorem spells_of_scanFrom {k : Nat} {t : Text} (h : (scanFrom a k t).stop = none) :
    List.Forall₂ (Piece.Spells a) (Piece.split t) ((scanFrom a k t).tokens.map (·.2)) := by
  obtain ⟨ps, rest, ts, hsplit, hspells, htokens, hend, -⟩ := scanFrom_pieces a k t
  rw [hsplit, hend h, List.append_nil, htokens, map_snd_zip_offsets hspells]
  exact hspells

section Disjoint

variable (ha : a.Lacks (operatorChars ++ specialChars))

include ha

theorem ofChar?_of_spells {c : Char} {t : Token} (h : Piece.Spells a (.bare c) t) :
    c ≠ escapeMark ∧ Token.ofChar? a c = some t := by
  cases h with
  | literal c h =>
    have h1 : c ≠ escapeMark := ha.ne h (by decide)
    have h2 : c ≠ emptyMark := ha.ne h (by decide)
    have h3 : c ≠ anyMark := ha.ne h (by decide)
    refine ⟨h1, ?_⟩
    unfold Token.ofChar?
    rw [if_neg h2, if_neg h3, if_pos h]
  | empty => exact ⟨by decide, rfl⟩
  | any => exact ⟨by decide, rfl⟩
  | op o =>
    -- an operator could only be mistaken for a literal
    have hlacks : a.hasChar o.char = false := by
      refine ha _ ?_
      cases o <;> decide
    refine ⟨by cases o <;> decide, ?_⟩
    unfold Token.ofChar?
    rw [if_neg (by cases o <;> decide), if_neg (by cases o <;> decide),
      if_neg (by rw [hlacks]; decide), ofChar?_char]
    rfl

/-- Reading the pieces that spell tokens gives the tokens and the indices of the pieces. -/
theorem scanFrom_of_spells {ps : List Piece} {ts : List Token}
    (h : List.Forall₂ (Piece.Spells a) ps ts) (k : Nat) :
    scanFrom a k (Piece.join ps) = ⟨(Piece.offsets k ps).zip ts, none⟩ := by
  induction h generalizing k with
  | nil => rfl
  | @cons p t ps ts hp hps ih =>
    rw [Piece.join_cons]
    cases p with
    | escaped c =>
      cases hp
      have heq : scanFrom a k ((Piece.escaped c).text ++ Piece.join ps) = _ :=
        scanFrom_escape k c (Piece.join ps)
      rw [heq, ih (k + 2)]
      rfl
    | bare c =>
      obtain ⟨hc, ht⟩ := ofChar?_of_spells ha hp
      have heq : scanFrom a k ((Piece.bare c).text ++ Piece.join ps) = _ :=
        scanFrom_cons k hc ht (Piece.join ps)
      rw [heq, ih (k + 1)]
      rfl

/-- Reading the spelling of tokens gives the tokens. -/
theorem scan_of_spells {t : Text} {ts : List Token} (h : Spells a t ts) :
    (scan a t).stop = none ∧ (scan a t).tokens.map (·.2) = ts := by
  obtain ⟨ps, rfl, hps⟩ := h
  rw [scan, scanFrom_of_spells ha hps 0]
  exact ⟨rfl, map_snd_zip_offsets hps 0⟩

end Disjoint

end RegexAutomata
