/-
The grammar of bounds.

Bounds are two brackets with a comma between them, and on each side of the comma a decimal number or
nothing, with blanks around it (`Bounds.IsBrackets`).  Reading bounds from the start of a text
accepts exactly this, and leaves what follows the closing bracket:

* `Bounds.readBound_append_of_isBound`, `Bounds.isBound_of_readBound` — one bound;
* `Bounds.parse?_eq_some_iff` — both, with the brackets.
-/
import Mathlib.Data.List.TakeWhile
import RegexAutomata.Proofs.Pattern.Bounds

namespace RegexAutomata

namespace Bounds

/-- The number that digits stand for in decimal notation, if there are any. -/
def decimal? (ds : Text) : Option Nat :=
  if ds.isEmpty then none else some (Nat.ofDigitChars 10 ds 0)

/-- A bound as it may be written. -/
inductive IsBound : Option Nat → Text → Prop
  | digits {before digits after : Text} (hbefore : ∀ c ∈ before, isBlank c = true)
    (hdigits : ∀ c ∈ digits, isDigit c = true) (hafter : ∀ c ∈ after, isBlank c = true) :
    IsBound (decimal? digits) (before ++ digits ++ after)

/-- Both bounds as they may be written. -/
inductive IsBrackets : Bounds → Text → Prop
  | brackets {lower upper : Option Nat} {t u : Text} (hlower : IsBound lower t)
    (hupper : IsBound upper u) : IsBrackets ⟨lower, upper⟩ ('[' :: t ++ ',' :: u ++ [']'])

theorem ofDigits?_eq_decimal? (ds : Text) : ofDigits? ds = decimal? ds := by
  rw [ofDigits?, decimal?, ofDigits, Nat.ofDigitChars_eq_foldl]

section

variable {bound : Option Nat} {b : Bounds} {t rest : Text} {c : Char}

/-! ### One bound -/

/-- A bound is read as far as it goes, if what follows cannot belong to it. -/
theorem readBound_append_of_isBound (h : IsBound bound t) (hblank : isBlank c = false)
    (hdigit : isDigit c = false) : readBound (t ++ c :: rest) = (bound, c :: rest) := by
  obtain ⟨hbefore, hdigits, hafter⟩ := h
  rw [← ofDigits?_eq_decimal?]
  refine readBound_append hbefore hdigits hafter ?_ ?_
  · rintro _ ⟨⟩
    exact hblank
  · rintro _ ⟨⟩
    exact hdigit

/-- What is read as a bound is one. -/
theorem isBound_of_readBound (h : readBound t = (bound, rest)) :
    ∃ u, t = u ++ rest ∧ IsBound bound u := by
  set inner := dropBlanks t with hinner
  set digits := inner.takeWhile isDigit with hdigits
  set behind := inner.dropWhile isDigit with hbehind
  obtain ⟨hbound, hrest⟩ := Prod.mk.inj h
  have hvalue : bound = decimal? digits := by
    rw [← ofDigits?_eq_decimal?, ← hbound]
    rfl
  refine ⟨t.takeWhile isBlank ++ digits ++ behind.takeWhile isBlank, ?_, ?_⟩
  · have hleft : behind.takeWhile isBlank ++ rest = behind := by
      rw [← hrest]
      exact List.takeWhile_append_dropWhile
    calc t = t.takeWhile isBlank ++ inner := List.takeWhile_append_dropWhile.symm
      _ = t.takeWhile isBlank ++ (digits ++ behind) := by
        rw [hdigits, hbehind, List.takeWhile_append_dropWhile]
      _ = _ := by rw [List.append_assoc, List.append_assoc, hleft]
  · rw [hvalue]
    exact .digits (fun _ => List.mem_takeWhile_imp) (fun _ => List.mem_takeWhile_imp)
      fun _ => List.mem_takeWhile_imp

/-! ### Both bounds -/

/-- Reading bounds accepts exactly what is written as the grammar says. -/
theorem parse?_eq_some_iff :
    parse? t = some (b, rest) ↔ ∃ u, t = u ++ rest ∧ IsBrackets b u := by
  constructor
  · intro h
    unfold parse? at h
    split at h
    · rename_i t
      split at h
      · rename_i lower behind hlower
        split at h
        · rename_i upper left hupper
          cases h
          obtain ⟨v, rfl, hv⟩ := isBound_of_readBound hlower
          obtain ⟨w, rfl, hw⟩ := isBound_of_readBound hupper
          exact ⟨_, by simp, .brackets hv hw⟩
        · cases h
      · cases h
    · cases h
  · rintro ⟨_, rfl, hlower, hupper⟩
    rename_i lower upper v w
    have htext : '[' :: v ++ ',' :: w ++ [']'] ++ rest = '[' :: (v ++ ',' :: (w ++ ']' :: rest)) := by
      simp
    rw [htext, parse?]
    simp only [readBound_append_of_isBound hlower (c := ',') (by decide) (by decide),
      readBound_append_of_isBound hupper (c := ']') (by decide) (by decide)]

/-! ### Characters -/

/-- The characters inside the brackets. -/
theorem IsBound.mem_cases (h : IsBound bound t) (hc : c ∈ t) :
    isBlank c = true ∨ isDigit c = true := by
  obtain ⟨hbefore, hdigits, hafter⟩ := h
  rcases List.mem_append.1 hc with hc | hc
  · exact (List.mem_append.1 hc).imp (hbefore c) (hdigits c)
  · exact .inl (hafter c hc)

theorem IsBound.not_mem (h : IsBound bound t) (hblank : isBlank c = false)
    (hdigit : isDigit c = false) : c ∉ t := by
  intro hc
  rcases h.mem_cases hc with h | h
  · rw [hblank] at h
    cases h
  · rw [hdigit] at h
    cases h

/-- The closing bracket is the first one of the text. -/
theorem IsBrackets.rest_eq (h : IsBrackets b t) (rest : Text) :
    rest = ((t ++ rest).dropWhile (· ≠ ']')).tail := by
  obtain ⟨hlower, hupper⟩ := h
  rename_i lower upper v w
  have hinside : ∀ c ∈ '[' :: v ++ ',' :: w, decide (c ≠ ']') = true := by
    intro c hc
    rw [decide_eq_true_eq]
    rintro rfl
    rcases List.mem_append.1 hc with hc | hc
    · exact hlower.not_mem (by decide) (by decide) (List.mem_of_ne_of_mem (by decide) hc)
    · exact hupper.not_mem (by decide) (by decide) (List.mem_of_ne_of_mem (by decide) hc)
  rw [List.append_assoc, List.dropWhile_append_of_pos hinside]
  rfl

end

/-! ### Rendering -/

theorem isBound_boundText (bound : Option Nat) {before after : Text}
    (hbefore : ∀ c ∈ before, isBlank c = true) (hafter : ∀ c ∈ after, isBlank c = true) :
    IsBound bound (before ++ boundText bound ++ after) := by
  have hdigits : ∀ c ∈ boundText bound, isDigit c = true := by
    intro c hc
    cases bound with
    | none => cases hc
    | some n => exact Nat.isDigit_of_mem_toDigits (by decide) (by decide) hc
  have hvalue : decimal? (boundText bound) = bound := by
    cases bound with
    | none => rfl
    | some n =>
      show (if (Nat.toDigits 10 n).isEmpty then none else _) = some n
      rw [if_neg (by simp [Nat.toDigits_ne_nil])]
      exact congrArg some Nat.ofDigitChars_ten_toDigits
  have hbound := IsBound.digits hbefore hdigits hafter
  rwa [hvalue] at hbound

/-- Whatever bounds are written out is written as the grammar says. -/
theorem isBrackets_render (b : Bounds) {s₁ s₂ s₃ s₄ : Text}
    (hblanks : ∀ s ∈ [s₁, s₂, s₃, s₄], ∀ c ∈ s, isBlank c = true) :
    IsBrackets b (b.render s₁ s₂ s₃ s₄) := by
  have hlower := isBound_boundText b.lower (hblanks s₁ (by simp)) (hblanks s₂ (by simp))
  have hupper := isBound_boundText b.upper (hblanks s₃ (by simp)) (hblanks s₄ (by simp))
  have hbrackets := IsBrackets.brackets hlower hupper
  have htext : b.render s₁ s₂ s₃ s₄ = '[' :: (s₁ ++ boundText b.lower ++ s₂) ++
      ',' :: (s₃ ++ boundText b.upper ++ s₄) ++ [']'] := by
    simp [render]
  rwa [← htext] at hbrackets

end Bounds

end RegexAutomata
