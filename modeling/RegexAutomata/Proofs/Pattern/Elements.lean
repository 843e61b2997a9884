/-
What a pattern consists of as it is written.

Before its abbreviations are spelled out, a pattern is a sequence of elements: escaped pairs, bounds
of repetitions together with their brackets, and single characters.  An abbreviation applies to the
elements before it that make up its operand; `extent` counts them.

* `elements_range`, `elements_bounds` — the elements of an abbreviation and of what follows it;
* `Whole` — elements that are an operand wherever they stand.
-/
import RegexAutomata.Proofs.Pattern.Context

namespace RegexAutomata

open Piece

/-! ### Elements -/

/-- A part of a pattern that is read as one. -/
inductive Element where
  | bare (c : Char)
  | escaped (c : Char)
  /-- Two bounds and the brackets around them. -/
  | bounds (b : Bounds)
deriving DecidableEq, Repr

namespace Element

/-- The piece that an element is when only parentheses matter. -/
def outline : Element → Piece
  | bare c => .bare c
  | escaped c => .escaped c
  | bounds _ => .bare ']'

/-- Can the element be an operand of its own? -/
def isAtom : Element → Bool
  | bare c => !(isOperator c || isShorthand c || c == escapeMark)
  | escaped _ => true
  | bounds _ => false

/-- Does the element belong to the operand before it? -/
def isSuffix : Element → Bool
  | bare c => c == '*' || c == '+' || c == '?'
  | escaped _ => false
  | bounds _ => true

/-- Can the element be an end of a range? -/
def isEndpoint : Element → Bool
  | bare c => !isReserved c
  | escaped _ => true
  | bounds _ => false

end Element

/-- The bounds `[,0]` and `[0,0]`, which leave no copy of what is repeated. -/
def Bounds.AllowsNone (b : Bounds) : Prop := b.lower.getD 0 = 0 ∧ b.upper = some 0

/-- The elements of a pattern. -/
def elements : Text → List Element
  | [] => []
  | c :: rest =>
    if c = escapeMark then
      match rest with
      | [] => [.bare c]
      | d :: rest => .escaped d :: elements rest
    else
      match h : Bounds.parse? (c :: rest) with
      | none => .bare c :: elements rest
      | some (b, left) =>
        have := Bounds.length_lt_of_parse? h
        .bounds b :: elements left
termination_by t => t.length
decreasing_by
  · exact Nat.lt_succ_of_lt (Nat.lt_succ_self _)
  · exact Nat.lt_succ_self _
  · exact Nat.lt_of_le_of_lt (Nat.le_add_right _ 2) this

/-- The number of elements of the operand at the end of a pattern, whose elements are given last
first. -/
def extent : List Element → Option Nat
  | [] => none
  | e :: es =>
    if e.isSuffix then (extent es).map (· + 1)
    else if e = .bare ')' then (groupBack 0 (es.map Element.outline)).map (·.length + 1)
    else if e.isAtom then
      match es with
      | [] => some 1
      | d :: before =>
        -- behind a dash the operand is a range
        if d = .bare '-' then (extent before).map (· + 2) else some 1
    else none

section

variable {c d : Char} {rest left : Text} {b : Bounds}

theorem elements_escape (d : Char) (rest : Text) :
    elements (escapeMark :: d :: rest) = .escaped d :: elements rest := by
  rw [elements, if_pos rfl]

theorem elements_of_ne (hc : c ≠ escapeMark) (rest : Text) :
    elements (c :: rest) = match Bounds.parse? (c :: rest) with
      | none => .bare c :: elements rest
      | some (b, left) => .bounds b :: elements left := by
  rw [elements.eq_def]
  simp only [if_neg hc]
  split <;> rename_i heq <;> rw [heq]

theorem elements_bounds (h : Bounds.parse? (c :: rest) = some (b, left)) :
    elements (c :: rest) = .bounds b :: elements left := by
  have hc : c ≠ escapeMark := by
    rintro rfl
    cases h
  rw [elements_of_ne hc]
  split
  · rename_i hnone
    rw [h] at hnone
    cases hnone
  · rename_i hsome
    rw [h] at hsome
    cases hsome
    rfl

theorem parse?_cons_of_ne (hc : c ≠ '[') (rest : Text) : Bounds.parse? (c :: rest) = none := by
  unfold Bounds.parse?
  split
  · rename_i heq
    exact absurd (List.cons.inj heq).1 hc
  · rfl

theorem elements_bare (hescape : c ≠ escapeMark) (hbracket : c ≠ '[') (rest : Text) :
    elements (c :: rest) = .bare c :: elements rest := by
  rw [elements_of_ne hescape, parse?_cons_of_ne hbracket]

theorem Untouched.elements_cons (hc : Untouched c) (rest : Text) :
    elements (c :: rest) = .bare c :: elements rest := by
  refine elements_bare hc.1 ?_ rest
  intro hbracket
  rw [hbracket] at hc
  exact absurd hc.2 (by decide)

/-- A dash and the character behind it. -/
theorem elements_range (h : Shorthand.upperEndpoint rest = some (d, left)) :
    ∃ e, elements ('-' :: rest) = .bare '-' :: e :: elements left ∧ e.isEndpoint = true := by
  rw [elements_bare (by decide) (by decide)]
  rcases upperEndpoint_cases h with rfl | ⟨rfl, hreserved⟩
  · exact ⟨_, by rw [elements_escape], rfl⟩
  · have hescape : d ≠ escapeMark := by
      rintro rfl
      cases hreserved
    have hbracket : d ≠ '[' := by
      rintro rfl
      cases hreserved
    refine ⟨_, by rw [elements_bare hescape hbracket], ?_⟩
    rw [Element.isEndpoint, hreserved]
    rfl

/-- Only a character that is no escape marker is an element by itself. -/
theorem exists_of_elements_bare {t : Text} {es : List Element} (hescape : c ≠ escapeMark)
    (h : elements t = .bare c :: es) : ∃ rest, t = c :: rest ∧ elements rest = es := by
  cases t with
  | nil =>
    rw [elements] at h
    cases h
  | cons d rest =>
    by_cases hd : d = escapeMark
    · subst hd
      cases rest with
      | nil =>
        rw [elements, if_pos rfl] at h
        cases h
        exact absurd rfl hescape
      | cons e rest =>
        rw [elements_escape] at h
        cases h
    · rw [elements_of_ne hd] at h
      split at h
      · cases h
        exact ⟨rest, rfl, rfl⟩
      · cases h

theorem eq_nil_of_elements {t : Text} (h : elements t = []) : t = [] := by
  unfold elements at h
  split at h
  · rfl
  · split at h
    · split at h
      · cases h
      · cases h
    · split at h
      · cases h
      · cases h

end

/-! ### Elements that are an operand -/

/-- The elements, given last first, are an operand wherever they stand, unless they become the upper
end of a range. -/
structure Whole (es : List Element) : Prop where
  nested : Nested (es.map Element.outline).reverse
  head : es.head? ≠ some (.bare '-')
  extent_append : ∀ rest, rest.head? ≠ some (.bare '-') → extent (es ++ rest) = some es.length

section

variable {e : Element} {es rest : List Element}

theorem Whole.ne_nil (h : Whole es) : es ≠ [] := by
  rintro rfl
  have hextent := h.extent_append [] nofun
  cases hextent

theorem Whole.append_head? (h : Whole es) (rest : List Element) :
    (es ++ rest).head? ≠ some (.bare '-') := by
  rw [List.head?_append_of_ne_nil _ h.ne_nil]
  exact h.head

theorem ne_of_isSuffix (h : e.isSuffix = true) :
    e ≠ .bare '-' ∧ e.outline ≠ bare '(' ∧ e.outline ≠ bare ')' := by
  cases e with
  | bare c =>
    simp only [Element.isSuffix, Bool.or_eq_true, beq_iff_eq] at h
    rcases h with (rfl | rfl) | rfl <;> decide
  | escaped c => cases h
  | bounds b => exact ⟨nofun, fun h => absurd h (by decide : bare ']' ≠ _), fun h =>
      absurd h (by decide : bare ']' ≠ _)⟩

theorem ne_of_isAtom (h : e.isAtom = true) :
    e.isSuffix = false ∧ e ≠ .bare '-' ∧ e.outline ≠ bare '(' ∧ e.outline ≠ bare ')' := by
  cases e with
  | bare c =>
    have hne : ∀ d, (Element.bare d).isAtom = false → c ≠ d := by
      rintro d hd rfl
      rw [h] at hd
      cases hd
    refine ⟨?_, fun heq => hne '-' rfl (Element.bare.inj heq),
      fun heq => hne '(' rfl (bare.inj heq), fun heq => hne ')' rfl (bare.inj heq)⟩
    simp [Element.isSuffix, hne '*' rfl, hne '+' rfl, hne '?' rfl]
  | escaped c => exact ⟨rfl, nofun, nofun, nofun⟩
  | bounds b => cases h

theorem extent_suffix (he : e.isSuffix = true) (es : List Element) :
    extent (e :: es) = (extent es).map (· + 1) := by
  rw [extent.eq_def]
  exact if_pos he

/-- A group, from its closing parenthesis back to the opening one. -/
theorem extent_closing (es : List Element) :
    extent (.bare ')' :: es) = (groupBack 0 (es.map Element.outline)).map (·.length + 1) := by
  rw [extent.eq_def]
  exact (if_neg (by decide)).trans (if_pos rfl)

theorem isAtom_of_isEndpoint (h : e.isEndpoint = true) : e.isAtom = true := by
  cases e with
  | bare c =>
    simp only [Element.isEndpoint, isReserved, Bool.not_eq_true', Bool.or_eq_false_iff] at h
    obtain ⟨⟨hoperator, hshorthand⟩, hspecial⟩ := h
    have hescape : c ≠ escapeMark := by
      rintro rfl
      cases hspecial
    rw [Element.isAtom, hoperator, hshorthand, beq_false_of_ne hescape]
    rfl
  | escaped c => rfl
  | bounds b => cases h

/-- An element that can be an operand of its own may also be the upper end of a range. -/
theorem extent_atom (he : e.isAtom = true) (es : List Element) :
    extent (e :: es) =
      if es.head? = some (.bare '-') then (extent es.tail).map (· + 2) else some 1 := by
  obtain ⟨hsuffix, _, _, hclosing⟩ := ne_of_isAtom he
  have hne : e ≠ .bare ')' := by
    rintro rfl
    exact hclosing rfl
  rw [extent.eq_def]
  simp only [if_neg (Bool.eq_false_iff.1 hsuffix), if_neg hne, if_pos he]
  cases es with
  | nil => rfl
  | cons d es => simp only [List.head?_cons, Option.some.injEq, List.tail_cons]

/-- An operand grows by what belongs to it. -/
theorem Whole.suffix (h : Whole es) (he : e.isSuffix = true) : Whole (e :: es) := by
  obtain ⟨hdash, hopening, hclosing⟩ := ne_of_isSuffix he
  refine ⟨?_, fun heq => hdash (Option.some.inj heq), fun rest hrest => ?_⟩
  · rw [List.map_cons, List.reverse_cons]
    exact h.nested.append (nested_singleton hopening hclosing)
  · rw [List.cons_append, extent_suffix he, h.extent_append rest hrest]
    rfl

theorem Whole.atom (he : e.isAtom = true) : Whole [e] := by
  obtain ⟨_, hdash, hopening, hclosing⟩ := ne_of_isAtom he
  refine ⟨nested_singleton hopening hclosing, fun heq => hdash (Option.some.inj heq), ?_⟩
  intro rest hrest
  exact (extent_atom he rest).trans (if_neg hrest)

theorem Whole.range (h : Whole es) (he : e.isAtom = true) : Whole (e :: .bare '-' :: es) := by
  obtain ⟨_, hdash, hopening, hclosing⟩ := ne_of_isAtom he
  refine ⟨?_, fun heq => hdash (Option.some.inj heq), fun rest hrest => ?_⟩
  · have hmark : Nested [bare '-'] := nested_singleton (by decide) (by decide)
    rw [List.map_cons, List.map_cons, List.reverse_cons, List.reverse_cons]
    exact (h.nested.append hmark).append (nested_singleton hopening hclosing)
  · rw [List.cons_append, List.cons_append, extent_atom he, if_pos List.head?_cons,
      List.tail_cons, h.extent_append rest hrest]
    rfl

theorem Whole.group {ps : List Piece} (h : groupBack 0 ps = some (es.map Element.outline)) :
    Whole (.bare ')' :: es) := by
  obtain ⟨qs, hqs, hes⟩ := nested_of_groupBack h
  refine ⟨?_, nofun, fun rest _ => ?_⟩
  · have houtline : (Element.bare ')' :: es).map Element.outline = (grouped qs).reverse := by
      rw [reverse_grouped, List.map_cons, hes]
      rfl
    rw [houtline, List.reverse_reverse]
    exact hqs.group
  · have hfound : groupBack 0 ((es ++ rest).map Element.outline) =
        some (es.map Element.outline) := by
      rw [List.map_append, hes, List.append_assoc]
      exact hqs.groupBack _
    rw [List.cons_append, extent_closing, hfound, Option.map_some, List.length_map,
      List.length_cons]

end

end RegexAutomata
