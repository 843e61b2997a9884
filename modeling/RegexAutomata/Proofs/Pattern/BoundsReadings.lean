/-
All the ways to read bounds.

Bounds can be read by a parser that is put together from smaller ones.  Such parsers collect all
their results: a run of blanks may end early, and a bound that is left out is an alternative that is
always tried.  Which results a repetition has besides the longest one, and in which order results
come, is left open (`Combinators.Documented`).

* `Combinators.mem_bounds_iff` — the results are what reading the longest runs gives;
* `Combinators.bounds_unambiguous` — so there is one at most, and one exactly for the texts that the
  grammar of bounds allows.
-/
import RegexAutomata.Proofs.Pattern.BoundsGrammar

namespace RegexAutomata

/-! ### Parsers -/

/-- The results of reading the start of a text: what was made of it, and the text behind it. -/
abbrev Parser (α : Type) := Text → List (α × Text)

namespace Parser

variable {α : Type}

/-- The parser reads the text before `u` piece by piece, and these are its results. -/
inductive Repeats (p : Parser α) : List α → Text → Text → Prop
  | none (t : Text) : Repeats p [] t t
  | more {x : α} {xs : List α} {t u v : Text} (hfirst : (x, u) ∈ p t) (hrest : Repeats p xs u v) :
    Repeats p (x :: xs) t v

/-- Each result leaves a shorter text. -/
def Consumes (p : Parser α) : Prop := ∀ t, ∀ r ∈ p t, r.2.length < t.length

end Parser

/-- A library of parsers. -/
structure Combinators where
  /-- Any one character. -/
  one : Parser Char
  /-- A given text. -/
  terminal : Text → Parser Text
  /-- Nothing at all, with a given result. -/
  succeed {α : Type} : α → Parser α
  /-- The results for which a test holds. -/
  filtered {α : Type} : Parser α → (α → Bool) → Parser α
  /-- The results, changed by a function. -/
  value {α β : Type} : Parser α → (α → β) → Parser β
  /-- One parser or the other. -/
  either {α : Type} : Parser α → Parser α → Parser α
  /-- One parser and then the other; their results are put together. -/
  followedBy {α β γ : Type} : Parser α → Parser β → (α → β → γ) → Parser γ
  /-- One parser and then the other, whose result is dropped. -/
  skip {α β : Type} : Parser α → Parser β → Parser α
  /-- A parser at least so many times; its results are put together. -/
  repeated {α β : Type} : Parser α → Nat → (List α → β) → Parser β

namespace Combinators

/-- What the code relies on. -/
structure Documented (L : Combinators) : Prop where
  mem_one {c : Char} {t u : Text} : (c, u) ∈ L.one t ↔ t = c :: u
  mem_terminal {w x t u : Text} : (x, u) ∈ L.terminal w t ↔ x = w ∧ t = w ++ u
  mem_succeed {α : Type} {x y : α} {t u : Text} : (y, u) ∈ L.succeed x t ↔ y = x ∧ u = t
  mem_filtered {α : Type} {p : Parser α} {f : α → Bool} {x : α} {t u : Text} :
    (x, u) ∈ L.filtered p f t ↔ (x, u) ∈ p t ∧ f x = true
  mem_value {α β : Type} {p : Parser α} {f : α → β} {y : β} {t u : Text} :
    (y, u) ∈ L.value p f t ↔ ∃ x, (x, u) ∈ p t ∧ f x = y
  mem_either {α : Type} {p q : Parser α} {x : α} {t u : Text} :
    (x, u) ∈ L.either p q t ↔ (x, u) ∈ p t ∨ (x, u) ∈ q t
  mem_followedBy {α β γ : Type} {p : Parser α} {q : Parser β} {f : α → β → γ} {z : γ}
    {t v : Text} : (z, v) ∈ L.followedBy p q f t ↔
      ∃ x u y, (x, u) ∈ p t ∧ (y, v) ∈ q u ∧ f x y = z
  mem_skip {α β : Type} {p : Parser α} {q : Parser β} {x : α} {t v : Text} :
    (x, v) ∈ L.skip p q t ↔ ∃ u y, (x, u) ∈ p t ∧ (y, v) ∈ q u
  repeats_of_mem_repeated {α β : Type} {p : Parser α} {n : Nat} {f : List α → β} {y : β}
    {t u : Text} : (y, u) ∈ L.repeated p n f t → ∃ xs, n ≤ xs.length ∧ p.Repeats xs t u ∧ y = f xs
  /-- Where no more can be read, the repetition is the longest one. -/
  mem_repeated_of_longest {α β : Type} {p : Parser α} {n : Nat} {f : List α → β} {xs : List α}
    {t u : Text} : p.Consumes → p.Repeats xs t u → n ≤ xs.length → p u = [] →
      (f xs, u) ∈ L.repeated p n f t

/-! ### The parser of bounds -/

/-- A run of characters for which a test holds. -/
def run {β : Type} (L : Combinators) (p : Char → Bool) (n : Nat) (f : Text → β) : Parser β :=
  L.repeated (L.filtered L.one p) n f

/-- Blanks, as many as there may be. -/
def blanks (L : Combinators) : Parser Unit := L.run isBlank 0 fun _ => ()

/-- A bound, or nothing, with blanks around it. -/
def bound (L : Combinators) : Parser (Option Nat) :=
  let digits := L.run Bounds.isDigit 1 id
  let number := L.value digits fun ds => some (Bounds.ofDigits ds)
  L.skip (L.followedBy L.blanks (L.either number (L.succeed none)) fun _ n => n) L.blanks

/-- The opening bracket, a bound and a comma. -/
def opened (L : Combinators) : Parser (Option Nat) :=
  L.skip (L.followedBy (L.terminal ['[']) L.bound fun _ n => n) (L.terminal [','])

/-- Two bounds in brackets. -/
def bounds (L : Combinators) : Parser Bounds :=
  L.skip (L.followedBy L.opened L.bound fun m n => ⟨m, n⟩) (L.terminal [']'])

section

variable {L : Combinators} (hL : L.Documented) {β : Type} {p : Char → Bool} {f : Text → β}
  {xs t u : Text} {n : Nat}

include hL

/-! ### Runs -/

theorem repeats_filtered_iff :
    (L.filtered L.one p).Repeats xs t u ↔ t = xs ++ u ∧ ∀ c ∈ xs, p c = true := by
  constructor
  · intro h
    induction h with
    | none t => exact ⟨rfl, nofun⟩
    | more hfirst _ ih =>
      obtain ⟨hone, hp⟩ := hL.mem_filtered.1 hfirst
      obtain ⟨rfl, hall⟩ := ih
      exact ⟨hL.mem_one.1 hone, List.forall_mem_cons.2 ⟨hp, hall⟩⟩
  · rintro ⟨rfl, hall⟩
    induction xs with
    | nil => exact .none u
    | cons c xs ih =>
      obtain ⟨hp, hall⟩ := List.forall_mem_cons.1 hall
      exact .more (hL.mem_filtered.2 ⟨hL.mem_one.2 rfl, hp⟩) (ih hall)

theorem exists_of_mem_run {y : β} (h : (y, u) ∈ L.run p n f t) :
    ∃ xs, n ≤ xs.length ∧ t = xs ++ u ∧ (∀ c ∈ xs, p c = true) ∧ y = f xs := by
  obtain ⟨xs, hn, hrepeats, hy⟩ := hL.repeats_of_mem_repeated h
  obtain ⟨ht, hall⟩ := (repeats_filtered_iff hL).1 hrepeats
  exact ⟨xs, hn, ht, hall, hy⟩

/-- The longest run is among the results. -/
theorem longest_mem_run (hn : n ≤ (t.takeWhile p).length) :
    (f (t.takeWhile p), t.dropWhile p) ∈ L.run p n f t := by
  refine hL.mem_repeated_of_longest ?_ ?_ hn ?_
  · rintro t ⟨c, u⟩ hr
    have ht := hL.mem_one.1 (hL.mem_filtered.1 hr).1
    rw [ht]
    exact Nat.lt_succ_self _
  · refine (repeats_filtered_iff hL).2 ⟨List.takeWhile_append_dropWhile.symm, ?_⟩
    exact fun c => List.mem_takeWhile_imp
  · rw [List.eq_nil_iff_forall_not_mem]
    rintro ⟨c, u⟩ hr
    obtain ⟨hone, hp⟩ := hL.mem_filtered.1 hr
    -- what follows the run does not start with such a character
    have hstop := List.head?_dropWhile_not p t
    rw [hL.mem_one.1 hone] at hstop
    exact absurd hp (by simpa using hstop)

theorem exists_of_mem_blanks {x : Unit} (h : (x, u) ∈ L.blanks t) :
    ∃ s, t = s ++ u ∧ ∀ c ∈ s, isBlank c = true := by
  obtain ⟨s, _, ht, hblank, _⟩ := exists_of_mem_run hL h
  exact ⟨s, ht, hblank⟩

theorem dropBlanks_mem_blanks (t : Text) : ((), dropBlanks t) ∈ L.blanks t :=
  longest_mem_run hL (Nat.zero_le _)

/-! ### One bound -/

theorem isBound_of_mem_bound {m : Option Nat} (h : (m, u) ∈ L.bound t) :
    ∃ s, t = s ++ u ∧ Bounds.IsBound m s := by
  obtain ⟨v, _, hfirst, hlast⟩ := hL.mem_skip.1 h
  obtain ⟨_, w, n, hblanks, hchoice, rfl⟩ := hL.mem_followedBy.1 hfirst
  obtain ⟨before, rfl, hbefore⟩ := exists_of_mem_blanks hL hblanks
  obtain ⟨after, rfl, hafter⟩ := exists_of_mem_blanks hL hlast
  rcases hL.mem_either.1 hchoice with hnumber | hnone
  · obtain ⟨ds, hrun, rfl⟩ := hL.mem_value.1 hnumber
    obtain ⟨_, hpos, rfl, hdigits, rfl⟩ := exists_of_mem_run hL hrun
    have hvalue : Bounds.decimal? ds = some (Bounds.ofDigits ds) := by
      rw [← Bounds.ofDigits?_eq_decimal?, Bounds.ofDigits?, if_neg]
      simpa using List.ne_nil_of_length_pos hpos
    refine ⟨before ++ ds ++ after, by simp, ?_⟩
    exact hvalue ▸ Bounds.IsBound.digits hbefore hdigits hafter
  · obtain ⟨rfl, rfl⟩ := hL.mem_succeed.1 hnone
    refine ⟨before ++ [] ++ after, by simp, ?_⟩
    exact Bounds.IsBound.digits hbefore (fun _ hc => absurd hc List.not_mem_nil) hafter

/-- The bound that is read with runs as long as possible is a result. -/
theorem readBound_mem_bound (t : Text) : Bounds.readBound t ∈ L.bound t := by
  set inner := dropBlanks t with hinner
  set digits := inner.takeWhile Bounds.isDigit with hdigits
  have hbefore : ((), inner) ∈ L.blanks t := dropBlanks_mem_blanks hL t
  have hbound : ((Bounds.readBound t).1, inner.dropWhile Bounds.isDigit) ∈
      L.either (L.value (L.run Bounds.isDigit 1 id) fun ds => some (Bounds.ofDigits ds))
        (L.succeed none) inner := by
    refine hL.mem_either.2 ?_
    by_cases hempty : digits = []
    -- the alternative without digits is the right one exactly if there are none
    · refine .inr (hL.mem_succeed.2 ⟨if_pos (List.isEmpty_iff.2 hempty), ?_⟩)
      have hall := List.takeWhile_append_dropWhile (p := Bounds.isDigit) (l := inner)
      rwa [← hdigits, hempty] at hall
    · refine .inl (hL.mem_value.2 ⟨digits, longest_mem_run hL ?_, (if_neg ?_).symm⟩)
      · exact List.length_pos_iff.2 hempty
      · exact fun h => hempty (List.isEmpty_iff.1 h)
  exact hL.mem_skip.2 ⟨_, (), hL.mem_followedBy.2 ⟨(), inner, _, hbefore, hbound, rfl⟩,
    dropBlanks_mem_blanks hL _⟩

/-! ### Both bounds -/

/-- The results are what reading the longest runs gives. -/
theorem mem_bounds_iff {r : Bounds × Text} : r ∈ L.bounds t ↔ Bounds.parse? t = some r := by
  obtain ⟨b, rest⟩ := r
  constructor
  · intro h
    obtain ⟨_, _, hboth, hclose⟩ := hL.mem_skip.1 h
    obtain ⟨lower, v, upper, hfirst, hupper, rfl⟩ := hL.mem_followedBy.1 hboth
    obtain ⟨_, _, hopened, hcomma⟩ := hL.mem_skip.1 hfirst
    obtain ⟨_, _, _, hopen, hlower, rfl⟩ := hL.mem_followedBy.1 hopened
    obtain ⟨s, hs, hlower⟩ := isBound_of_mem_bound hL hlower
    obtain ⟨s', hs', hupper⟩ := isBound_of_mem_bound hL hupper
    refine Bounds.parse?_eq_some_iff.2 ⟨_, ?_, .brackets hlower hupper⟩
    rw [(hL.mem_terminal.1 hopen).2, hs, (hL.mem_terminal.1 hcomma).2, hs',
      (hL.mem_terminal.1 hclose).2]
    simp
  · intro h
    unfold Bounds.parse? at h
    split at h
    · rename_i t
      split at h
      · rename_i lower v hlower
        split at h
        · rename_i upper left hupper
          cases h
          have hm := readBound_mem_bound hL t
          have hn := readBound_mem_bound hL v
          rw [hlower] at hm
          rw [hupper] at hn
          have hopen : (['['], t) ∈ L.terminal ['['] ('[' :: t) := hL.mem_terminal.2 ⟨rfl, rfl⟩
          have hcomma : ([','], v) ∈ L.terminal [','] (',' :: v) := hL.mem_terminal.2 ⟨rfl, rfl⟩
          have hclose : ([']'], rest) ∈ L.terminal [']'] (']' :: rest) :=
            hL.mem_terminal.2 ⟨rfl, rfl⟩
          have hfirst : (lower, v) ∈ L.opened ('[' :: t) :=
            hL.mem_skip.2 ⟨_, _, hL.mem_followedBy.2 ⟨_, _, _, hopen, hm, rfl⟩, hcomma⟩
          exact hL.mem_skip.2 ⟨_, _, hL.mem_followedBy.2 ⟨_, _, _, hfirst, hn, rfl⟩, hclose⟩
        · cases h
      · cases h
    · cases h

/-- Bounds can be read in one way at most.  They can be read if the text starts with what the grammar
allows, as those bounds and with the text behind the first closing bracket left; this is also what
`Bounds.parse?` gives.  So bounds that are written out in any way are read back. -/
theorem bounds_unambiguous (t : Text) :
    (L.bounds t ≠ [] ↔ ∃ b u rest, t = u ++ rest ∧ Bounds.IsBrackets b u) ∧
      (∀ b u rest, t = u ++ rest → Bounds.IsBrackets b u →
        (∀ r ∈ L.bounds t, r = (b, rest)) ∧ rest = (t.dropWhile (· ≠ ']')).tail) ∧
      (L.bounds t).head? = Bounds.parse? t ∧
      ∀ b s₁ s₂ s₃ s₄ rest, (∀ s ∈ [s₁, s₂, s₃, s₄], ∀ c ∈ s, isBlank c = true) →
        t = Bounds.render b s₁ s₂ s₃ s₄ ++ rest →
          L.bounds t ≠ [] ∧ ∀ r ∈ L.bounds t, r = (b, rest) := by
  have hsome : L.bounds t ≠ [] ↔ ∃ r, Bounds.parse? t = some r := by
    simp only [← mem_bounds_iff hL]
    exact ⟨List.exists_mem_of_ne_nil _, fun ⟨_, hr⟩ => List.ne_nil_of_mem hr⟩
  have hunique : ∀ b u rest, t = u ++ rest → Bounds.IsBrackets b u →
      L.bounds t ≠ [] ∧ ∀ r ∈ L.bounds t, r = (b, rest) := by
    intro b u rest ht hb
    have hparse := Bounds.parse?_eq_some_iff.2 ⟨u, ht, hb⟩
    refine ⟨hsome.2 ⟨_, hparse⟩, fun r hr => ?_⟩
    exact Option.some.inj (((mem_bounds_iff hL).1 hr).symm.trans hparse)
  refine ⟨?_, fun b u rest ht hb => ⟨(hunique b u rest ht hb).2, ?_⟩, ?_, ?_⟩
  · rw [hsome]
    constructor
    · rintro ⟨⟨b, rest⟩, hparse⟩
      obtain ⟨u, ht, hb⟩ := Bounds.parse?_eq_some_iff.1 hparse
      exact ⟨b, u, rest, ht, hb⟩
    · rintro ⟨b, u, rest, ht, hb⟩
      exact ⟨_, Bounds.parse?_eq_some_iff.2 ⟨u, ht, hb⟩⟩
  · rw [ht]
    exact hb.rest_eq rest
  · cases hresults : L.bounds t with
    | nil =>
      refine (Option.eq_none_iff_forall_ne_some.2 fun r hparse => ?_).symm
      exact hsome.2 ⟨r, hparse⟩ hresults
    | cons r rs =>
      have hr : r ∈ L.bounds t := by
        rw [hresults]
        exact .head _
      exact ((mem_bounds_iff hL).1 hr).symm
  · intro b s₁ s₂ s₃ s₄ rest hblanks ht
    exact hunique b _ rest ht (Bounds.isBrackets_render b hblanks)

end

/-! ### A library -/

/-- All ways to read a text piece by piece, with at most so many pieces. -/
def repetitions {α : Type} (p : Parser α) : Nat → Text → List (List α × Text)
  | 0, t => [([], t)]
  | k + 1, t => ([], t) :: (p t).flatMap fun r =>
      (repetitions p k r.2).map fun s => (r.1 :: s.1, s.2)

/-- One parser and then the other, with all their results. -/
def sequence {α β γ : Type} (p : Parser α) (q : Parser β) (f : α → β → γ) : Parser γ := fun t =>
  (p t).flatMap fun r => (q r.2).map fun s => (f r.1 s.1, s.2)

/-- Parsers that collect all results, except that a repetition may give the longest ones alone. -/
def collecting (longestOnly : Bool) : Combinators where
  one
    | [] => []
    | c :: u => [(c, u)]
  terminal w t := if w.isPrefixOf t then [(w, t.drop w.length)] else []
  succeed x t := [(x, t)]
  filtered p f t := (p t).filter fun r => f r.1
  value p f t := (p t).map fun r => (f r.1, r.2)
  either p q t := p t ++ q t
  followedBy := sequence
  skip p q := sequence p q fun x _ => x
  repeated p n f t := ((repetitions p t.length t).filter fun r =>
    decide (n ≤ r.1.length) && (!longestOnly || (p r.2).isEmpty)).map fun r => (f r.1, r.2)

section

variable {α : Type} {p : Parser α} {xs : List α} {t u : Text} {k : Nat}

theorem repeats_of_mem_repetitions (h : (xs, u) ∈ repetitions p k t) : p.Repeats xs t u := by
  induction k generalizing xs t with
  | zero =>
    cases List.mem_singleton.1 h
    exact .none _
  | succ k ih =>
    rcases List.mem_cons.1 h with h | h
    · cases h
      exact .none _
    · obtain ⟨⟨x, v⟩, hfirst, h⟩ := List.mem_flatMap.1 h
      obtain ⟨⟨ys, w⟩, hrest, heq⟩ := List.mem_map.1 h
      cases heq
      exact .more hfirst (ih hrest)

theorem mem_repetitions (hp : p.Consumes) (h : p.Repeats xs t u) (hk : t.length ≤ k) :
    (xs, u) ∈ repetitions p k t := by
  induction h generalizing k with
  | none t =>
    cases k with
    | zero => exact List.mem_singleton_self _
    | succ k => exact .head _
  | @more x xs t u v hfirst _ ih =>
    have hshort : u.length < t.length := hp t _ hfirst
    cases k with
    | zero => omega
    | succ k =>
      refine .tail _ (List.mem_flatMap.2 ⟨_, hfirst, List.mem_map.2 ⟨_, ih ?_, rfl⟩⟩)
      omega

theorem mem_sequence {β γ : Type} {q : Parser β} {f : α → β → γ} {z : γ} {v : Text} :
    (z, v) ∈ sequence p q f t ↔ ∃ x u y, (x, u) ∈ p t ∧ (y, v) ∈ q u ∧ f x y = z := by
  constructor
  · intro h
    obtain ⟨⟨x, u⟩, hx, h⟩ := List.mem_flatMap.1 h
    obtain ⟨⟨y, w⟩, hy, heq⟩ := List.mem_map.1 h
    cases heq
    exact ⟨x, u, y, hx, hy, rfl⟩
  · rintro ⟨x, u, y, hx, hy, rfl⟩
    exact List.mem_flatMap.2 ⟨_, hx, List.mem_map.2 ⟨_, hy, rfl⟩⟩

theorem documented_collecting (longestOnly : Bool) : (collecting longestOnly).Documented where
  mem_one {c t u} := by
    cases t with
    | nil => simp [collecting]
    | cons d t =>
      show (c, u) ∈ [(d, t)] ↔ d :: t = c :: u
      rw [List.mem_singleton, Prod.mk.injEq, List.cons.injEq, eq_comm, @eq_comm _ u]
  mem_terminal {w x t u} := by
    simp only [collecting]
    by_cases h : w.isPrefixOf t = true
    · obtain ⟨v, rfl⟩ := List.isPrefixOf_iff_prefix.1 h
      rw [if_pos h, List.mem_singleton, Prod.mk.injEq, List.drop_left, List.append_cancel_left_eq,
        @eq_comm _ u]
    · simp only [if_neg h, List.not_mem_nil, false_iff]
      rintro ⟨rfl, rfl⟩
      exact h (List.isPrefixOf_iff_prefix.2 (List.prefix_append _ _))
  mem_succeed := by simp [collecting]
  mem_filtered := by simp [collecting]
  mem_value := by simp [collecting]
  mem_either := by simp [collecting]
  mem_followedBy := mem_sequence
  mem_skip {α β p q x t v} := by
    refine (mem_sequence (f := fun x _ => x)).trans ⟨?_, ?_⟩
    · rintro ⟨x, u, y, hx, hy, rfl⟩
      exact ⟨u, y, hx, hy⟩
    · rintro ⟨u, y, hx, hy⟩
      exact ⟨_, u, y, hx, hy, rfl⟩
  repeats_of_mem_repeated {α β p n f y t u} h := by
    obtain ⟨⟨xs, v⟩, hmem, heq⟩ := List.mem_map.1 h
    cases heq
    obtain ⟨hxs, htest⟩ := List.mem_filter.1 hmem
    rw [Bool.and_eq_true, decide_eq_true_eq] at htest
    exact ⟨xs, htest.1, repeats_of_mem_repetitions hxs, rfl⟩
  mem_repeated_of_longest {α β p n f xs t u} hp hrepeats hn hu := by
    refine List.mem_map.2 ⟨(xs, u), List.mem_filter.2 ⟨mem_repetitions hp hrepeats (le_refl _), ?_⟩,
      rfl⟩
    simp [hn, hu]

end

/-- A bound with a leading zero and blanks, one that is left out, and a second closing bracket, read
with all repetitions or with the longest ones alone. -/
theorem bounds_unambiguous_leadingZero :
    (collecting false).Documented ∧ (collecting true).Documented ∧
      Bounds.parse? "[ 07 , ]]".toList = some (⟨some 7, none⟩, [']']) ∧
      (∀ r ∈ (collecting false).bounds "[ 07 , ]]".toList, r = (⟨some 7, none⟩, [']'])) ∧
      ∀ r ∈ (collecting true).bounds "[ 07 , ]]".toList, r = (⟨some 7, none⟩, [']']) := by
  have hparse : Bounds.parse? "[ 07 , ]]".toList = some (⟨some 7, none⟩, [']']) := by decide +kernel
  obtain ⟨u, ht, hu⟩ := Bounds.parse?_eq_some_iff.1 hparse
  have hall := documented_collecting false
  have hlongest := documented_collecting true
  exact ⟨hall, hlongest, hparse, ((bounds_unambiguous hall _).2.1 _ u _ ht hu).1,
    ((bounds_unambiguous hlongest _).2.1 _ u _ ht hu).1⟩

end Combinators

end RegexAutomata
