/-
What remains of elements when a pattern is spelled out.

An abbreviation copies its operand, so what the operand shows is shown by the copies as well.  There
are two exceptions: a repetition can allow no copy, and a range only keeps its ends.  Whatever lasts
in copies (`Lasting`) is therefore found in the result, if no such repetition reaches back to it and
it is no end of a range.

* `Marked.step`, `Marked.stays_of_expandFrom` — one step of the reading, and all that follow;
* `remains_bare`, `remains_stranded` — characters, and negations before the end of an operand.
-/
import Mathlib.Algebra.Order.Group.Nat
import Mathlib.Algebra.Order.Ring.Canonical
import RegexAutomata.Proofs.Pattern.Chunks

namespace RegexAutomata

open Piece Shorthand

/-! ### Lasting properties -/

/-- What pieces show (last first) is shown by copies of them.  It stays if it is shown anywhere, and
of the ends of a range only a single piece can show it. -/
structure Lasting (Shows Stays : List Piece → Prop) : Prop where
  copied : ∀ {ps qs}, Shows ps → ps <:+: qs → Shows qs
  stays : ∀ {ps}, Shows ps → Stays ps
  single : ∀ {ps low}, IsOperand ps.reverse → Shows ps →
    lowerEndpoint (join ps.reverse) = some low → ps.length = 1

/-- An operand that reaches into the chunks at the back shows the property and has more than `n`
elements, where `n` is the number of elements read since; and without it the property stays. -/
structure Marked (Shows Stays : List Piece → Prop) (n : Nat) (front back : List Chunk) : Prop where
  shows : ∀ bs reached, reached ≠ [] → reached <+: back →
    IsOperand (piecesOf (bs ++ reached)).reverse → Shows (piecesOf (bs ++ reached)) ∧
      n < (elementsOf (front ++ reached)).length
  stays : ∀ bs, Stays (piecesOf (bs ++ back))

section

variable {Shows Stays : List Piece → Prop} {n : Nat} {front back taken kept : List Chunk}
  {used : List Element} {b : Chunk}

/-- A chunk that shows the property. -/
theorem Lasting.marked (hs : Lasting Shows Stays) (hb : Shows b.pieces)
    (hn : n < b.elements.length) (kept : List Chunk) : Marked Shows Stays n [] (b :: kept) where
  shows bs reached hne hprefix _ := by
    obtain ⟨more, rfl⟩ : ∃ more, reached = b :: more := by
      obtain ⟨rest, hrest⟩ := hprefix
      cases reached with
      | nil => exact absurd rfl hne
      | cons b' more => exact ⟨more, congrArg (· :: more) (List.cons.inj hrest).1⟩
    refine ⟨hs.copied hb ?_, ?_⟩
    · rw [piecesOf_append, piecesOf_cons]
      exact ⟨piecesOf bs, piecesOf more, List.append_assoc ..⟩
    · simp only [List.nil_append, elementsOf_cons, List.length_append]
      omega
  stays bs := by
    refine hs.stays (hs.copied hb ?_)
    rw [piecesOf_append, piecesOf_cons]
    exact ⟨piecesOf bs, piecesOf kept, List.append_assoc ..⟩

/-- Chunks at the front make way for one that has more elements. -/
theorem Marked.replaceFront (h : Marked Shows Stays n (taken ++ front) back)
    (hb : b.elements = used.reverse ++ elementsOf taken) :
    Marked Shows Stays (n + used.length) (b :: front) back where
  shows bs reached hne hprefix hoperand := by
    obtain ⟨hshows, hlength⟩ := h.shows bs reached hne hprefix hoperand
    refine ⟨hshows, ?_⟩
    simp only [List.cons_append, elementsOf_cons, elementsOf_append, hb, List.length_append,
      List.length_reverse] at hlength ⊢
    omega
  stays := h.stays

/-- A step keeps the property, if no repetition drops it and it is no end of a range. -/
theorem Marked.step (hs : Lasting Shows Stays) (h : Marked Shows Stays n front back)
    (hbs : front ++ back = taken ++ kept) (hforms : Forms taken used b)
    (hrange : n = 0 → used.head? ≠ some (.bare '-'))
    (hkept : ∀ bounds k, used = [.bounds bounds] → bounds.AllowsNone →
      extent (elementsOf (front ++ back)) = some k → k ≤ n) :
    ∃ front' back', b :: kept = front' ++ back' ∧
      Marked Shows Stays (n + used.length) front' back' := by
  rcases List.append_eq_append_iff.1 hbs with ⟨reached, htaken, rfl⟩ | ⟨rest, rfl, rfl⟩
  · by_cases hne : reached = []
    · subst hne htaken
      exact ⟨[b], kept, rfl, Marked.replaceFront (by simpa using h) hforms.elements_eq⟩
    · have hreached := h.shows front reached hne (List.prefix_append _ _)
      rw [← htaken] at hreached
      have hlonger : n < (elementsOf taken).length → n + used.length < b.elements.length := by
        rw [hforms.elements_eq, List.length_append, List.length_reverse]
        omega
      refine ⟨[], b :: kept, rfl, ?_⟩
      cases hforms with
      | fresh => exact absurd (List.append_eq_nil_iff.1 htaken.symm).2 hne
      | copies _ hoperand hcopies =>
        obtain ⟨hshows, hlength⟩ := hreached hoperand
        exact hs.marked (hs.copied hshows hcopies) (hlonger hlength) kept
      | nothing _ hoperand hwhole hbounds =>
        -- such a repetition does not reach back this far
        obtain ⟨_, hlength⟩ := hreached hoperand
        rw [hbs, elementsOf_append] at hkept
        have hle := hkept _ _ rfl hbounds (hwhole.extent_append _ (elementsOf_head? kept))
        omega
      | range _ hoperand hlow _ =>
        -- nothing has been read since, so the dash stands right behind
        obtain ⟨hshows, hlength⟩ := hreached hoperand
        rw [length_elementsOf_of_piecesOf (hs.single hoperand hshows hlow)] at hlength
        exact absurd rfl (hrange (by omega))
  · exact ⟨b :: rest, back, rfl, h.replaceFront hforms.elements_eq⟩

end

/-- At the end of the pattern, the pieces of the chunks are all there is. -/
theorem eq_of_written {a : Alphabet} {bs : List Chunk} {qs : List Piece}
    (hqs : bare escapeMark ∉ qs) (h : expandFrom a (written bs) [] = .ok (join qs)) :
    (piecesOf bs).reverse = qs := by
  rw [expandFrom, written, List.reverse_reverse] at h
  exact eq_of_join_eq (complete_piecesOf bs) hqs (Except.ok.inj h)

/-- What is shown stays to the end of the pattern. -/
theorem Marked.stays_of_expandFrom {a : Alphabet} {Shows Stays : List Piece → Prop} {n : Nat}
    {front back : List Chunk} {t : Text} {qs : List Piece}
    (ha : a.Lacks (operatorChars ++ shorthandChars ++ specialChars))
    (hs : Lasting Shows Stays) (h : Marked Shows Stays n front back)
    (hqs : bare escapeMark ∉ qs)
    (hexpand : expandFrom a (written (front ++ back)) t = .ok (join qs))
    (hrange : n = 0 → (elements t).head? ≠ some (.bare '-'))
    (hkept : ∀ inside bounds rest k, elements t = inside ++ .bounds bounds :: rest →
      bounds.AllowsNone → extent (inside.reverse ++ elementsOf (front ++ back)) = some k →
        k ≤ n + inside.length) : Stays qs.reverse := by
  induction hlength : t.length using Nat.strong_induction_on generalizing t front back n with
  | _ m ih =>
    cases t with
    | nil =>
      rw [← eq_of_written hqs hexpand, List.reverse_reverse]
      exact h.stays front
    | cons c after =>
      obtain ⟨taken, kept, used, b, left, hbs, hused, hforms, hleft, hexpand⟩ :=
        expandFrom_forms ha hexpand
      have hfirst : (elements (c :: after)).head? = used.head? := by
        rcases hforms.used_cases with ⟨e, rfl⟩ | ⟨e, rfl, _⟩ <;> rw [hused] <;> rfl
      obtain ⟨front', back', hbs', h'⟩ := h.step hs hbs hforms (by rwa [← hfirst]) <| by
        rintro bounds k rfl hbounds hextent
        exact hkept [] bounds (elements left) k hused hbounds hextent
      have hshort : left.length < m := by
        rw [← hlength]
        exact Nat.lt_succ_of_le hleft
      have hpos : used.length ≠ 0 := by
        rcases hforms.used_cases with ⟨e, rfl⟩ | ⟨e, rfl, _⟩ <;> simp
      rw [hbs'] at hexpand
      refine ih _ hshort h' hexpand (fun hzero => by omega) ?_ rfl
      -- the elements of the new chunk are those that it was made of
      intro inside bounds rest k helements hbounds hextent
      rw [← hbs', elementsOf_cons, hforms.elements_eq, List.append_assoc, ← elementsOf_append,
        ← hbs, ← List.append_assoc, ← List.reverse_append] at hextent
      have hle := hkept (used ++ inside) bounds rest k
        (by rw [hused, helements, List.append_assoc]) hbounds hextent
      rw [List.length_append] at hle
      omega

/-! ### Characters -/

/-- The lower end of a range. -/
theorem eq_of_lowerEndpoint {qs : List Piece} {low : Char} (hqs : bare escapeMark ∉ qs)
    (h : lowerEndpoint (join qs) = some low) :
    qs = [bare low] ∨ qs = [escaped low] ∨ qs = grouped [escaped low] := by
  rw [← split_join_of_complete hqs]
  generalize join qs = t at h
  unfold lowerEndpoint at h
  split at h
  · split at h
    · cases h
    · cases h
      exact .inl rfl
  · rename_i m c
    split at h
    · rename_i hm
      cases h
      exact .inr (.inl (by rw [hm, split_escape]; rfl))
    · cases h
  · split at h
    · rename_i hm
      obtain ⟨rfl, rfl, rfl⟩ := hm
      cases h
      refine .inr (.inr ?_)
      rw [split_cons (by decide), split_escape]
      rfl
    · cases h
  · cases h

/-- A character that the lower end of a range shows is all of it. -/
theorem length_of_lowerEndpoint {ps : List Piece} {c low : Char} (hps : IsOperand ps.reverse)
    (hc : c ≠ '(' ∧ c ≠ ')') (hmem : bare c ∈ ps)
    (hlow : lowerEndpoint (join ps.reverse) = some low) : ps.length = 1 := by
  have hmem : bare c ∈ ps.reverse := List.mem_reverse.2 hmem
  rw [← List.length_reverse]
  rcases eq_of_lowerEndpoint hps.selfContained.complete hlow with heq | heq | heq
  · rw [heq]
    rfl
  · rw [heq] at hmem
    cases List.mem_singleton.1 hmem
  · rw [heq] at hmem
    simp [grouped, hc] at hmem

theorem lasting_bare {c : Char} (hc : c ≠ '(' ∧ c ≠ ')') :
    Lasting (bare c ∈ ·) (bare c ∈ ·) where
  copied hmem hinfix := hinfix.subset hmem
  stays := id
  single hps hmem hlow := length_of_lowerEndpoint hps hc hmem hlow

/-- A repetition that allows no copy applies to elements from `before` on. -/
def Dropped (before after : List Element) : Prop :=
  ∃ inside bounds rest k, after = inside ++ .bounds bounds :: rest ∧ bounds.AllowsNone ∧
    extent (before ++ inside).reverse = some k ∧ inside.length < k

section

variable {a : Alphabet} {before after : List Element} {c : Char} {t : Text} {qs : List Piece}

/-- A character that is not reserved is found in what a pattern becomes, unless it is the end of a
range or is dropped. -/
theorem remains_bare (ha : a.Lacks (operatorChars ++ shorthandChars ++ specialChars))
    (hqs : bare escapeMark ∉ qs) (hexpand : expand a t = .ok (join qs))
    (ht : elements t = before ++ ([.bare c] ++ after))
    (hc : isReserved c = false) (hbefore : before.getLast? ≠ some (.bare '-'))
    (hafter : after.head? ≠ some (.bare '-')) (hkept : ¬ Dropped (before ++ [.bare c]) after) :
    bare c ∈ qs := by
  have hparens : c ≠ '(' ∧ c ≠ ')' := by
    constructor
    · rintro rfl
      cases hc
    · rintro rfl
      cases hc
  have huntouched := untouched_of_isReserved hc
  have hexpand : expandFrom a (written []) t = .ok (join qs) := hexpand
  obtain ⟨bs, t', hexpand, ht', hbs⟩ := exists_chunks ha hexpand ht fun h => absurd h hbefore
  obtain ⟨t'', ht'', hplain⟩ := expandFrom_plain (a := a) huntouched ht'
  rw [hplain] at hexpand
  have hmarked : Marked (bare c ∈ ·) (bare c ∈ ·) 0 [] (.plain c huntouched :: bs) :=
    (lasting_bare hparens).marked (List.mem_singleton_self _) Nat.zero_lt_one bs
  refine List.mem_reverse.1 (hmarked.stays_of_expandFrom ha (lasting_bare hparens) hqs hexpand
    (fun _ => by rw [ht'']; exact hafter) ?_)
  intro inside bounds rest k hrest hbounds hextent
  by_contra hlt
  refine hkept ⟨inside, bounds, rest, k, ht''.symm.trans hrest, hbounds, ?_, by omega⟩
  rw [← hextent]
  simp [hbs, Chunk.elements]

end

/-! ### Negations -/

/-- What may stand behind an operand, but starts none. -/
def followers : List Char := [')', '|', '&', '*']

/-- An odd number of negations in a row, with no operand behind them. -/
def Stranded (qs : List Piece) : Prop :=
  ∃ front k back, qs = front ++ (List.replicate k (bare '!') ++ back) ∧ Odd k ∧
    front.getLast? ≠ some (bare '!') ∧ ∀ q ∈ back.head?, ∃ f ∈ followers, q = bare f

/-- The same together with the pieces around it, last first. -/
def ShowsStranded (k : Nat) (ps : List Piece) : Prop :=
  ∃ f ∈ followers, ∃ q, q ≠ bare '!' ∧ bare f :: (List.replicate k (bare '!') ++ [q]) <:+: ps

theorem stranded_append {k : Nat} (hk : Odd k) {f : Char} (hf : f ∈ followers)
    {before : List Piece} (hbefore : before.head? ≠ some (bare '!')) (after : List Piece) :
    Stranded (after ++ bare f :: (List.replicate k (bare '!') ++ before)).reverse := by
  refine ⟨before.reverse, k, bare f :: after.reverse, by simp, hk, ?_, ?_⟩
  · rwa [List.getLast?_reverse]
  · rintro _ ⟨⟩
    exact ⟨f, hf, rfl⟩

theorem lasting_stranded {k : Nat} (hk : Odd k) :
    Lasting (ShowsStranded k) (fun ps => Stranded ps.reverse) where
  copied := by
    rintro ps qs ⟨f, hf, q, hq, hshown⟩ hinfix
    exact ⟨f, hf, q, hq, hshown.trans hinfix⟩
  stays := by
    rintro _ ⟨f, hf, q, hq, after, before, rfl⟩
    have hhead : ([q] ++ before).head? ≠ some (bare '!') := fun h => hq (Option.some.inj h)
    simpa using stranded_append hk hf hhead after
  single := by
    rintro ps low hps ⟨f, hf, q, hq, hshown⟩ hlow
    refine length_of_lowerEndpoint hps (by decide : '!' ≠ '(' ∧ '!' ≠ ')') ?_ hlow
    refine hshown.subset (List.mem_cons_of_mem _ (List.mem_append_left _ ?_))
    exact List.mem_replicate.2 ⟨hk.pos.ne', rfl⟩

/-- No operand starts inside of negations, or right behind them. -/
theorem not_isOperand_marks {f : Char} (hf : f ∈ followers) (hplain : Untouched f)
    (hmark : Untouched '!') (cs : List Chunk) (k : Nat) : ¬ IsOperand
      (piecesOf (cs ++ .plain f hplain :: List.replicate k (.plain '!' hmark))).reverse := by
  have hreverse :
      (piecesOf (cs ++ .plain f hplain :: List.replicate k (.plain '!' hmark))).reverse =
        List.replicate k (bare '!') ++ bare f :: (piecesOf cs).reverse := by
    simp [piecesOf_replicate, Chunk.pieces]
  rw [hreverse]
  intro hoperand
  cases k with
  | zero =>
    have hall : followers.all (fun f => isOperator f && f != '(') = true := by decide
    have hfollower := List.all_eq_true.1 hall f hf
    rw [Bool.and_eq_true, bne_iff_ne] at hfollower
    exact hfollower.2 (hoperand.eq_opening hfollower.1 rfl)
  | succ k => exact hoperand.head_ne _ rfl rfl

/-- An operand that reaches into negations with no operand behind them has the piece before them as
well. -/
theorem marked_stranded {k : Nat} (hk : Odd k) {f : Char} (hf : f ∈ followers)
    (hplain : Untouched f) (hmark : Untouched '!') {bs : List Chunk}
    (hbs : (piecesOf bs).head? ≠ some (bare '!')) :
    Marked (ShowsStranded k) (fun ps => Stranded ps.reverse) 1 []
      (.plain f hplain :: (List.replicate k (.plain '!' hmark) ++ bs)) where
  shows cs reached hne hprefix hoperand := by
    obtain ⟨rest, hrest⟩ := hprefix
    cases reached with
    | nil => exact absurd rfl hne
    | cons b more =>
      obtain ⟨rfl, hmore⟩ := List.cons.inj hrest
      rcases List.append_eq_append_iff.1 hmore with ⟨others, hmarks, _⟩ | ⟨others, rfl, rfl⟩
      · obtain ⟨_, hmarks, _⟩ := List.append_eq_replicate_iff.1 hmarks.symm
        rw [hmarks] at hoperand
        exact absurd hoperand (not_isOperand_marks hf hplain hmark cs _)
      · cases others with
        | nil =>
          rw [List.append_nil] at hoperand
          exact absurd hoperand (not_isOperand_marks hf hplain hmark cs k)
        | cons b others =>
          obtain ⟨q, qs, hb⟩ := List.exists_cons_of_ne_nil b.pieces_ne_nil
          have hq : q ≠ bare '!' := by
            rintro rfl
            exact hbs (by simp [hb])
          have hpos : 0 < k := hk.pos
          have hfollower : (Chunk.plain f hplain).pieces = [bare f] := rfl
          refine ⟨⟨f, hf, q, hq, piecesOf cs, qs ++ piecesOf others, ?_⟩, ?_⟩
          · simp [piecesOf_replicate, hfollower, hb]
          · simp only [List.nil_append, elementsOf_cons, elementsOf_append, elementsOf_replicate,
              Chunk.elements, List.length_append, List.length_singleton, List.length_replicate]
            omega
  stays cs := by
    simpa [piecesOf_replicate, Chunk.pieces] using stranded_append hk hf hbs (piecesOf cs)

section

variable {a : Alphabet} {before after : List Element} {k : Nat} {t : Text} {qs : List Piece}

/-- Negations without an operand are found in what a pattern becomes, unless they are dropped. -/
theorem remains_stranded (ha : a.Lacks (operatorChars ++ shorthandChars ++ specialChars))
    (hqs : bare escapeMark ∉ qs) (hexpand : expand a t = .ok (join qs))
    (ht : elements t = before ++ (List.replicate k (.bare '!') ++ after))
    (hk : Odd k) (hbefore : before.getLast? ≠ some (.bare '!'))
    (hafter : ∀ e ∈ after.head?, ∃ f ∈ followers, e = .bare f)
    (hkept : ¬ Dropped (before ++ List.replicate k (.bare '!')) after) : Stranded qs := by
  have hmark : Untouched '!' := by
    constructor <;> decide
  have hexpand : expandFrom a (written []) t = .ok (join qs) := hexpand
  obtain ⟨bs, t', hexpand, ht', hbs⟩ := exists_chunks ha hexpand ht <| by
    intro _ e he
    obtain ⟨n, rfl⟩ := Nat.exists_eq_succ_of_ne_zero hk.pos.ne'
    cases he
    rfl
  have hends : (piecesOf bs).head? ≠ some (bare '!') := by
    refine piecesOf_head?_ne (by decide) ?_
    rwa [hbs, elementsOf_nil, List.append_nil, List.head?_reverse]
  obtain ⟨t'', ht'', hplain⟩ := expandFrom_plain_replicate (a := a) hmark k ht'
  rw [hplain] at hexpand
  cases after with
  | nil =>
    -- the pattern ends right behind the negations
    rw [eq_nil_of_elements ht''] at hexpand
    rw [← eq_of_written hqs hexpand]
    refine ⟨(piecesOf bs).reverse, k, [], ?_, hk, ?_, fun _ hq => by cases hq⟩
    · simp [piecesOf_replicate]
    · rwa [List.getLast?_reverse]
  | cons e after =>
    obtain ⟨f, hf, rfl⟩ := hafter _ rfl
    have hfollower : Untouched f := by
      have hall : followers.all (fun f => f != escapeMark && !isTrigger f) = true := by decide
      have hall := List.all_eq_true.1 hall f hf
      rw [Bool.and_eq_true, bne_iff_ne, Bool.not_eq_true'] at hall
      exact hall
    obtain ⟨t₃, ht₃, hplain₃⟩ := expandFrom_plain (a := a) hfollower ht''
    rw [hplain₃] at hexpand
    have hmarked := marked_stranded hk hf hfollower hmark hends
    have hreach : ∀ inside bounds rest n, elements t₃ = inside ++ .bounds bounds :: rest →
        bounds.AllowsNone → extent (inside.reverse ++ elementsOf
          ([] ++ .plain f hfollower :: (List.replicate k (.plain '!' hmark) ++ bs))) = some n →
        n ≤ 1 + inside.length := by
      intro inside bounds rest n hrest hbounds hextent
      by_contra hlt
      refine hkept ⟨.bare f :: inside, bounds, rest, n, ?_, hbounds, ?_, ?_⟩
      · rw [← ht₃, hrest]
        rfl
      · rw [← hextent]
        simp [hbs, elementsOf_replicate, Chunk.elements]
      · rw [List.length_cons]
        omega
    have hstays := hmarked.stays_of_expandFrom ha (lasting_stranded hk) hqs hexpand
      (fun h => absurd h one_ne_zero) hreach
    rwa [List.reverse_reverse] at hstays

end

end RegexAutomata
