/-
Which tokens are derivable.

A list of tokens is derivable from the grammar if and only if each of its tokens is admitted at
its place, the last one ends an operand, and the parentheses are balanced
(`exists_tokens_eq_iff`).  From such tokens a phrase of each kind can be read off (`Reads`), as
long as the grammar allows; so four lemmas, one for each kind, give the syntax tree.
-/
import RegexAutomata.Proofs.Pattern.Grammar

namespace RegexAutomata

/-! ### Places and parentheses -/

/-- What a token must be, as far as the token before it decides. -/
inductive Place where
  /-- The start of an operand. -/
  | operand
  /-- The start of an operand, right behind a negation. -/
  | negated
  /-- What may follow the end of an operand. -/
  | behind
deriving DecidableEq, Repr

/-- The place right behind a token. -/
def Token.place : Token → Place
  | atom _ => .behind
  | op .star => .behind
  | op .closing => .behind
  | op .complement => .negated
  | op _ => .operand

/-- May this token stand here? -/
def Place.admits : Place → Token → Bool
  | operand, .atom _ => true
  | operand, .op o => o == .opening || o == .complement
  | negated, .atom _ => true
  | negated, .op o => o == .opening
  | behind, .atom _ => false
  | behind, .op o => o == .star || o == .concat || o == .union || o == .closing

/-- Each token may stand where it stands, and the last one ends an operand. -/
def WellPlaced : Place → List Token → Prop
  | p, [] => p = .behind
  | p, t :: ts => p.admits t = true ∧ WellPlaced t.place ts

/-- The tokens close all their parentheses and so many more. -/
def Balanced : Nat → List Token → Prop
  | d, [] => d = 0
  | d, .op .opening :: ts => Balanced (d + 1) ts
  | d, .op .closing :: ts => 0 < d ∧ Balanced (d - 1) ts
  | d, _ :: ts => Balanced d ts

instance (p : Place) (ts : List Token) : Decidable (WellPlaced p ts) :=
  match ts with
  | [] => inferInstanceAs (Decidable (p = .behind))
  | t :: ts =>
    have : Decidable (WellPlaced t.place ts) := instDecidableWellPlaced t.place ts
    inferInstanceAs (Decidable (p.admits t = true ∧ WellPlaced t.place ts))

/-- The place at which a phrase starts. -/
def Level.place : Level → Place
  | base => .negated
  | _ => .operand

/-! ### The tokens of a phrase -/

theorem wellPlaced_tokens_append {l : Level} (e : Canon l) {p : Place}
    (hp : p = .operand ∨ p = l.place) {ts : List Token} (hts : WellPlaced .behind ts) :
    WellPlaced p (e.tokens ++ ts) := by
  induction e generalizing p ts with
  | atom a =>
    refine ⟨?_, hts⟩
    rcases hp with rfl | rfl <;> rfl
  | group e ih =>
    have hinner : WellPlaced .operand (e.tokens ++ .op .closing :: ts) :=
      ih (.inl rfl) ⟨rfl, hts⟩
    rw [Canon.group_tokens_append]
    refine ⟨?_, hinner⟩
    rcases hp with rfl | rfl <;> rfl
  | ofBase b ih => exact ih (.inl (hp.elim id id)) hts
  | complement b ih =>
    refine ⟨?_, ih (.inr rfl) hts⟩
    rcases hp with rfl | rfl <;> rfl
  | star f ih =>
    have hstar : WellPlaced .behind (.op .star :: ts) := ⟨rfl, hts⟩
    rw [Canon.star_tokens_append]
    exact ih hp hstar
  | ofFactor f ih => exact ih hp hts
  | concat f t ihf iht =>
    have hterm : WellPlaced .behind (.op .concat :: (t.tokens ++ ts)) := ⟨rfl, iht (.inl rfl) hts⟩
    rw [Canon.concat_tokens_append]
    exact ihf hp hterm
  | ofTerm t ih => exact ih hp hts
  | union t e iht ihe =>
    have hexpr : WellPlaced .behind (.op .union :: (e.tokens ++ ts)) := ⟨rfl, ihe (.inl rfl) hts⟩
    rw [Canon.union_tokens_append]
    exact iht hp hexpr

theorem balanced_tokens_append {l : Level} (e : Canon l) (d : Nat) (ts : List Token) :
    Balanced d (e.tokens ++ ts) ↔ Balanced d ts := by
  induction e generalizing d ts with
  | atom a => rfl
  | group e ih =>
    have hclosing : Balanced (d + 1) (.op .closing :: ts) ↔ Balanced d ts :=
      and_iff_right (Nat.succ_pos d)
    rw [Canon.group_tokens_append]
    exact (ih (d + 1) _).trans hclosing
  | ofBase b ih => exact ih d ts
  | complement b ih => exact ih d ts
  | star f ih =>
    rw [Canon.star_tokens_append, ih]
    rfl
  | ofFactor f ih => exact ih d ts
  | concat f t ihf iht =>
    rw [Canon.concat_tokens_append, ihf]
    exact iht d ts
  | ofTerm t ih => exact ih d ts
  | union t e iht ihe =>
    rw [Canon.union_tokens_append, iht]
    exact ihe d ts

/-! ### Reading phrases -/

/-- The operators that would make a phrase longer. -/
def Level.extenders : Level → List Operator
  | base => []
  | factor => [.star]
  | term => [.star, .concat]
  | expr => [.star, .concat, .union]

/-- A phrase stands at the start of the tokens, and the rest of them, which has `d` parentheses
to close, neither extends it nor starts another one. -/
def Reads (l : Level) (d : Nat) (ts : List Token) : Prop :=
  ∃ (e : Canon l) (rest : List Token), ts = e.tokens ++ rest ∧ WellPlaced .behind rest ∧
    Balanced d rest ∧ ∀ o ∈ l.extenders, rest.head? ≠ some (.op o)

/-- Phrases of this kind can be read from so many tokens. -/
def ReadsUpTo (n : Nat) (l : Level) : Prop :=
  ∀ d ts, ts.length ≤ n → WellPlaced l.place ts → Balanced d ts → Reads l d ts

variable {n d : Nat} {ts rest : List Token}

/-- Behind an expression comes the end of the group, or nothing. -/
theorem eq_nil_or_closing (hrest : WellPlaced .behind rest)
    (hstop : ∀ o ∈ Level.expr.extenders, rest.head? ≠ some (.op o)) :
    rest = [] ∨ ∃ rest', rest = .op .closing :: rest' := by
  cases rest with
  | nil => exact .inl rfl
  | cons t rest =>
    obtain ⟨hadmits, _⟩ := hrest
    cases t with
    | atom a => cases hadmits
    | op o =>
      cases o with
      | star => exact absurd rfl (hstop .star (by decide))
      | concat => exact absurd rfl (hstop .concat (by decide))
      | union => exact absurd rfl (hstop .union (by decide))
      | closing => exact .inr ⟨rest, rfl⟩
      | _ => cases hadmits

theorem readsUpTo_base (h : ReadsUpTo n .expr) : ReadsUpTo (n + 1) .base := by
  intro d ts hlen hts hbal
  cases ts with
  | nil => cases hts
  | cons t ts =>
    obtain ⟨hadmits, hts⟩ := hts
    cases t with
    | atom a => exact ⟨.atom a, ts, rfl, hts, hbal, nofun⟩
    | op o =>
      have ho : o = .opening := eq_of_beq hadmits
      subst ho
      obtain ⟨e, rest, rfl, hrest, hbal, hstop⟩ :=
        h (d + 1) ts (Nat.le_of_succ_le_succ hlen) hts hbal
      rcases eq_nil_or_closing hrest hstop with rfl | ⟨rest, rfl⟩
      · -- the group is still open
        cases hbal
      · exact ⟨.group e, rest, (Canon.group_tokens_append _ e).symm, hrest.2, hbal.2, nofun⟩

/-- A factor takes all stars behind it. -/
theorem reads_factor (f : Canon .factor) (hrest : WellPlaced .behind rest)
    (hbal : Balanced d rest) : Reads .factor d (f.tokens ++ rest) := by
  induction rest generalizing f with
  | nil => exact ⟨f, [], rfl, hrest, hbal, by simp⟩
  | cons t rest ih =>
    by_cases ht : t = .op .star
    · subst ht
      obtain ⟨f', rest', heq, hrest'⟩ := ih (.star f) hrest.2 hbal
      exact ⟨f', rest', (Canon.star_tokens_append _ f).symm.trans heq, hrest'⟩
    · refine ⟨f, t :: rest, rfl, hrest, hbal, fun o ho => ?_⟩
      have ho : o = .star := List.mem_singleton.1 ho
      rw [ho]
      simpa using ht

theorem readsUpTo_factor (h : ReadsUpTo n .base) : ReadsUpTo n .factor := by
  intro d ts hlen hts hbal
  by_cases hhead : ∃ rest, ts = .op .complement :: rest
  · obtain ⟨rest, rfl⟩ := hhead
    obtain ⟨b, rest, rfl, hrest, hbal, _⟩ := h d rest (Nat.le_of_succ_le hlen) hts.2 hbal
    exact reads_factor (.complement b) hrest hbal
  · have hbase : WellPlaced .negated ts := by
      cases ts with
      | nil => cases hts
      | cons t ts =>
        obtain ⟨hadmits, hts⟩ := hts
        refine ⟨?_, hts⟩
        cases t with
        | atom a => rfl
        | op o =>
          cases o with
          | opening => rfl
          | complement => exact absurd ⟨ts, rfl⟩ hhead
          | _ => cases hadmits
    obtain ⟨b, rest, rfl, hrest, hbal, _⟩ := h d ts hlen hbase hbal
    exact reads_factor (.ofBase b) hrest hbal

theorem readsUpTo_term (hfactor : ReadsUpTo (n + 1) .factor) (hterm : ReadsUpTo n .term) :
    ReadsUpTo (n + 1) .term := by
  intro d ts hlen hts hbal
  obtain ⟨f, rest, rfl, hrest, hbal, hstop⟩ := hfactor d ts hlen hts hbal
  by_cases hhead : rest.head? = some (.op .concat)
  · obtain ⟨rest, rfl⟩ := List.head?_eq_some_iff.1 hhead
    have hshort : rest.length ≤ n := by
      rw [List.length_append, List.length_cons] at hlen
      omega
    obtain ⟨t, rest, rfl, hrest, hbal, hstop⟩ := hterm d rest hshort hrest.2 hbal
    exact ⟨.concat f t, rest, (Canon.concat_tokens_append _ f t).symm, hrest, hbal, hstop⟩
  · refine ⟨.ofFactor f, rest, rfl, hrest, hbal, fun o ho => ?_⟩
    rcases List.mem_cons.1 ho with rfl | ho
    · exact hstop .star (by decide)
    · rw [List.mem_singleton.1 ho]
      exact hhead

theorem readsUpTo_expr (hterm : ReadsUpTo (n + 1) .term) (hexpr : ReadsUpTo n .expr) :
    ReadsUpTo (n + 1) .expr := by
  intro d ts hlen hts hbal
  obtain ⟨t, rest, rfl, hrest, hbal, hstop⟩ := hterm d ts hlen hts hbal
  by_cases hhead : rest.head? = some (.op .union)
  · obtain ⟨rest, rfl⟩ := List.head?_eq_some_iff.1 hhead
    have hshort : rest.length ≤ n := by
      rw [List.length_append, List.length_cons] at hlen
      omega
    obtain ⟨e, rest, rfl, hrest, hbal, hstop⟩ := hexpr d rest hshort hrest.2 hbal
    exact ⟨.union t e, rest, (Canon.union_tokens_append _ t e).symm, hrest, hbal, hstop⟩
  · refine ⟨.ofTerm t, rest, rfl, hrest, hbal, fun o ho => ?_⟩
    rcases List.mem_cons.1 ho with rfl | ho
    · exact hstop .star (by decide)
    · rcases List.mem_cons.1 ho with rfl | ho
      · exact hstop .concat (by decide)
      · rw [List.mem_singleton.1 ho]
        exact hhead

theorem readsUpTo (n : Nat) (l : Level) : ReadsUpTo n l := by
  induction n generalizing l with
  | zero =>
    intro d ts hlen hts hbal
    rw [List.length_eq_zero_iff.1 (Nat.le_zero.1 hlen)] at hts
    cases l <;> cases hts
  | succ n ih =>
    have hfactor := readsUpTo_factor (readsUpTo_base (ih .expr))
    have hterm := readsUpTo_term hfactor (ih .term)
    cases l with
    | base => exact readsUpTo_base (ih .expr)
    | factor => exact hfactor
    | term => exact hterm
    | expr => exact readsUpTo_expr hterm (ih .expr)

/-- The derivable lists of tokens. -/
theorem exists_tokens_eq_iff :
    (∃ e : Canon .expr, e.tokens = ts) ↔ WellPlaced .operand ts ∧ Balanced 0 ts := by
  constructor
  · rintro ⟨e, rfl⟩
    have hplaced : WellPlaced .operand (e.tokens ++ []) :=
      wellPlaced_tokens_append e (.inl rfl) rfl
    have hbalanced : Balanced 0 (e.tokens ++ []) := (balanced_tokens_append e 0 []).2 rfl
    rw [List.append_nil] at hplaced hbalanced
    exact ⟨hplaced, hbalanced⟩
  · rintro ⟨hplaced, hbalanced⟩
    obtain ⟨e, rest, rfl, hrest, hbal, hstop⟩ :=
      readsUpTo ts.length .expr 0 ts (le_refl _) hplaced hbalanced
    rcases eq_nil_or_closing hrest hstop with rfl | ⟨rest, rfl⟩
    · exact ⟨e, (List.append_nil _).symm⟩
    · -- a closing parenthesis would have nothing to close
      exact absurd hbal.1 (Nat.lt_irrefl 0)

end RegexAutomata
