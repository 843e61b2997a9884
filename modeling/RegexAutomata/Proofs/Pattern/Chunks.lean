/-
Which elements of a pattern become which pieces.

While a pattern is spelled out, what has been read is a sequence of chunks, kept last first: a
character that stays as it is, or the group that has been made of an escaped pair or of an
abbreviation with its operand.  An operand consists of whole chunks (`operand_piecesOf`), so each
step puts one chunk in the place of those that it takes (`exists_forms`).

* `Chunk` — elements, and the pieces that they have become;
* `Forms` — all ways to form a chunk;
* `exists_chunks` — the chunks of the first elements of a pattern.
-/
import RegexAutomata.Proofs.Pattern.Context
import RegexAutomata.Proofs.Pattern.Elements
import RegexAutomata.Proofs.Pattern.Phrases

namespace RegexAutomata

open Piece Shorthand

/-! ### Chunks -/

/-- Elements that have been read, and the pieces that they have become. -/
inductive Chunk where
  | plain (c : Char) (h : Untouched c)
  | closed (es : List Element) (qs : List Piece) (hes : Whole es) (hqs : SelfContained qs)

namespace Chunk

/-- What the chunk was, last element first. -/
def elements : Chunk → List Element
  | plain c _ => [.bare c]
  | closed es _ _ _ => es

/-- What the chunk has become, last piece first. -/
def pieces : Chunk → List Piece
  | plain c _ => [.bare c]
  | closed _ qs _ _ => (grouped qs).reverse

theorem elements_append_head? (b : Chunk) (es : List Element) :
    (b.elements ++ es).head? ≠ some (.bare '-') := by
  cases b with
  | plain c h =>
    intro heq
    have hc : c = '-' := Element.bare.inj (Option.some.inj heq)
    rw [hc] at h
    exact absurd h.2 (by decide)
  | closed es' qs hes hqs => exact hes.append_head? es

theorem pieces_ne_nil (b : Chunk) : b.pieces ≠ [] := by
  cases b with
  | plain c h => exact List.cons_ne_nil _ _
  | closed es qs hes hqs => simp [pieces, grouped]

theorem complete (b : Chunk) : .bare escapeMark ∉ b.pieces := by
  cases b with
  | plain c h =>
    intro hmem
    exact h.1 (bare.inj (List.mem_singleton.1 hmem)).symm
  | closed es qs hes hqs =>
    intro hmem
    exact hqs.group.complete (List.mem_reverse.1 hmem)

end Chunk

/-- The elements of chunks, all last first. -/
def elementsOf (bs : List Chunk) : List Element := bs.flatMap Chunk.elements

/-- The pieces of chunks, all last first. -/
def piecesOf (bs : List Chunk) : List Piece := bs.flatMap Chunk.pieces

/-- The text of chunks that are given last first, last character first. -/
def written (bs : List Chunk) : Text := (join (piecesOf bs).reverse).reverse

section

variable {bs cs : List Chunk} {b : Chunk}

@[simp] theorem elementsOf_nil : elementsOf [] = [] := rfl

@[simp] theorem elementsOf_cons : elementsOf (b :: bs) = b.elements ++ elementsOf bs := rfl

@[simp] theorem piecesOf_cons : piecesOf (b :: bs) = b.pieces ++ piecesOf bs := rfl

@[simp] theorem elementsOf_append : elementsOf (bs ++ cs) = elementsOf bs ++ elementsOf cs :=
  List.flatMap_append

@[simp] theorem piecesOf_append : piecesOf (bs ++ cs) = piecesOf bs ++ piecesOf cs :=
  List.flatMap_append

theorem elementsOf_replicate {c : Char} (hc : Untouched c) (k : Nat) :
    elementsOf (List.replicate k (.plain c hc)) = List.replicate k (.bare c) := by
  induction k with
  | zero => rfl
  | succ k ih => exact congrArg (Element.bare c :: ·) ih

theorem piecesOf_replicate {c : Char} (hc : Untouched c) (k : Nat) :
    piecesOf (List.replicate k (.plain c hc)) = List.replicate k (bare c) := by
  induction k with
  | zero => rfl
  | succ k ih => exact congrArg (bare c :: ·) ih

theorem written_append (bs cs : List Chunk) : written (bs ++ cs) = written bs ++ written cs := by
  simp only [written, piecesOf_append, List.reverse_append, join_append]

theorem elementsOf_head? (bs : List Chunk) : (elementsOf bs).head? ≠ some (.bare '-') := by
  cases bs with
  | nil => exact nofun
  | cons b bs => exact b.elements_append_head? _

theorem complete_piecesOf (bs : List Chunk) : bare escapeMark ∉ (piecesOf bs).reverse := by
  intro hmem
  obtain ⟨b, _, hb⟩ := List.mem_flatMap.1 (List.mem_reverse.1 hmem)
  exact b.complete hb

/-- Chunks end like their elements, as far as these are plain. -/
theorem piecesOf_head?_ne {c : Char} (hc : c ≠ ')')
    (h : (elementsOf bs).head? ≠ some (.bare c)) : (piecesOf bs).head? ≠ some (bare c) := by
  intro hhead
  cases bs with
  | nil => cases hhead
  | cons b bs =>
    cases b with
    | plain d hd =>
      cases hhead
      exact h rfl
    | closed es qs hes hqs =>
      rw [piecesOf_cons, Chunk.pieces, reverse_grouped] at hhead
      exact hc (bare.inj (Option.some.inj hhead)).symm

/-- A single piece was a single element. -/
theorem length_elementsOf_of_piecesOf (h : (piecesOf bs).length = 1) :
    (elementsOf bs).length = 1 := by
  have hpos : ∀ b : Chunk, 0 < b.pieces.length :=
    fun b => List.length_pos_iff.2 b.pieces_ne_nil
  cases bs with
  | nil => cases h
  | cons b bs =>
    rw [piecesOf_cons, List.length_append] at h
    have hb := hpos b
    cases bs with
    | cons b' bs =>
      have hb' := hpos b'
      rw [piecesOf_cons, List.length_append] at h
      omega
    | nil =>
      cases b with
      | plain c hc => rfl
      | closed es qs hes hqs =>
        simp [piecesOf, Chunk.pieces, grouped] at h

end

/-! ### Operands -/

section

variable {bs : List Chunk} {found : List Piece}

/-- The start of a group is found at the same chunk among the elements and among the pieces. -/
theorem groupBack_piecesOf {depth : Nat} (h : groupBack depth (piecesOf bs) = some found) :
    ∃ taken kept, bs = taken ++ kept ∧ found = piecesOf taken ∧
      groupBack depth ((elementsOf bs).map Element.outline) =
        some ((elementsOf taken).map Element.outline) := by
  induction bs generalizing depth found with
  | nil => cases h
  | cons b bs ih =>
    cases b with
    | plain c hc =>
      -- the character ends the search in both, or in neither of them
      rcases groupBack_cons depth (bare c) with hend | ⟨d, hon⟩
      · have hfound : some [bare c] = some found := (hend _).symm.trans h
        cases hfound
        exact ⟨[.plain c hc], bs, rfl, rfl, hend _⟩
      · have hmore : (groupBack d (piecesOf bs)).map (bare c :: ·) = some found :=
          (hon _).symm.trans h
        obtain ⟨found, hfound, rfl⟩ := Option.map_eq_some_iff.1 hmore
        obtain ⟨taken, kept, rfl, rfl, houtline⟩ := ih hfound
        exact ⟨.plain c hc :: taken, kept, rfl, rfl, (hon _).trans (congrArg _ houtline)⟩
    | closed es qs hes hqs =>
      -- and a group is passed over
      have hpieces := hqs.nested.group depth (piecesOf bs)
      have helements := hes.nested depth ((elementsOf bs).map Element.outline)
      rw [List.reverse_reverse] at helements
      obtain ⟨found, hfound, rfl⟩ := Option.map_eq_some_iff.1 (hpieces.symm.trans h)
      obtain ⟨taken, kept, rfl, rfl, houtline⟩ := ih hfound
      refine ⟨.closed es qs hes hqs :: taken, kept, rfl, rfl, ?_⟩
      rw [elementsOf_cons, List.map_append]
      refine helements.trans ?_
      rw [houtline, elementsOf_cons, List.map_append]
      rfl

/-- An operand is made of whole chunks, and was an operand as it was written. -/
theorem operand_piecesOf (h : operand (piecesOf bs) = .ok found) :
    ∃ taken kept, bs = taken ++ kept ∧ found = piecesOf taken ∧ Whole (elementsOf taken) ∧
      IsOperand (piecesOf taken).reverse := by
  induction bs generalizing found with
  | nil => cases h
  | cons b bs ih =>
    cases b with
    | closed es qs hes hqs =>
      have hgroup := operand_append (.group hqs) (piecesOf bs).reverse
      rw [List.reverse_append, List.reverse_reverse] at hgroup
      cases hgroup.symm.trans h
      refine ⟨[.closed es qs hes hqs], bs, rfl, (List.append_nil _).symm, ?_, ?_⟩
      · simpa [Chunk.elements] using hes
      · simpa [piecesOf, Chunk.pieces] using IsOperand.group hqs
    | plain c hc =>
      have hends : EndsInOperand (bare c :: piecesOf bs) found := operand_eq_ok_iff.1 h
      cases hends with
      | plain hop hsh he =>
        have hatom : (Element.bare c).isAtom = true := by simp [Element.isAtom, hop, hsh, he]
        exact ⟨[.plain c hc], bs, rfl, rfl, .atom hatom, .plain hop hsh he⟩
      | star hinner =>
        obtain ⟨taken, kept, rfl, rfl, hwhole, hoperand⟩ := ih (operand_eq_ok_iff.2 hinner)
        refine ⟨.plain '*' hc :: taken, kept, rfl, rfl, hwhole.suffix rfl, ?_⟩
        rw [piecesOf_cons, List.reverse_append]
        exact .star hoperand
      | group hgroup =>
        obtain ⟨taken, kept, rfl, rfl, houtline⟩ := groupBack_piecesOf hgroup
        obtain ⟨qs, hqs, hfound⟩ := nested_of_groupBack hgroup
        refine ⟨.plain ')' hc :: taken, kept, rfl, rfl, .group houtline, ?_⟩
        have hpieces : (piecesOf (.plain ')' hc :: taken)).reverse = grouped qs := by
          rw [piecesOf_cons, hfound]
          simp [Chunk.pieces, grouped]
        have hcomplete : bare escapeMark ∉ qs := by
          intro hmem
          refine complete_piecesOf taken (List.mem_reverse.2 ?_)
          rw [hfound]
          exact List.mem_append_left _ (List.mem_reverse.2 hmem)
        rw [hpieces]
        exact .group ⟨hqs, hcomplete⟩

end

/-! ### Replacements -/

section

variable {a : Alphabet} {qs rs : List Piece} {c : Char} {after replacement left : Text}

theorem infix_grouped (h : qs <:+: rs) : qs <:+: grouped rs :=
  h.trans ⟨[bare '('], [bare ')'], rfl⟩

theorem infix_alternatives {options : List (List Piece)} (h : qs ∈ options) :
    qs <:+: alternatives options := by
  refine infix_grouped ?_
  induction options with
  | nil => cases h
  | cons rs options ih =>
    cases options with
    | nil =>
      rw [List.mem_singleton.1 h]
      simp
    | cons rs' options =>
      rw [List.intercalate_cons_cons]
      rcases List.mem_cons.1 h with rfl | h
      · exact ⟨[], _, (List.append_assoc ..).symm⟩
      · exact (ih h).trans (List.suffix_append _ _).isInfix

/-- A repetition that allows a copy has one. -/
theorem infix_repeated {b : Bounds} (hb : ¬ b.AllowsNone)
    (hle : ∀ m ∈ b.lower, ∀ n ∈ b.upper, ¬ n < m) : qs <:+: repeated qs b := by
  obtain ⟨lower, _ | upper⟩ := b
  · exact infix_grouped ⟨copies (lower.getD 0) qs, [bare '*'], rfl⟩
  · have hlower : lower.getD 0 ≤ upper := by
      cases lower with
      | none => exact Nat.zero_le _
      | some m => exact Nat.not_lt.1 (hle m rfl upper rfl)
    have hupper : upper ≠ 0 := by
      rintro rfl
      exact hb ⟨Nat.le_zero.1 hlower, rfl⟩
    obtain ⟨n, rfl⟩ := Nat.exists_eq_succ_of_ne_zero hupper
    have hcopies : qs <:+: copies (n + 1) qs := ⟨[], copies n qs, rfl⟩
    refine hcopies.trans (infix_alternatives (List.mem_map.2 ⟨n + 1, ?_, if_neg hupper⟩))
    exact mem_countDown.2 ⟨hlower, le_refl _⟩

/-- An abbreviation and its operand make a group.  It has a copy of the operand, unless none is
allowed or the operand is the lower end of a range. -/
theorem spell_spec (ha : a.Lacks (operatorChars ++ shorthandChars ++ specialChars))
    (hqs : IsOperand qs)
    (h : spell a (join qs) c after = .ok (replacement, left)) :
    ∃ rs, SelfContained rs ∧ replacement = join (grouped rs) ∧
      ((∃ e, elements (c :: after) = e :: elements left ∧ e.isSuffix = true ∧ qs <:+: grouped rs) ∨
        (∃ b, elements (c :: after) = .bounds b :: elements left ∧ b.AllowsNone) ∨
        ∃ e low, elements (c :: after) = .bare '-' :: e :: elements left ∧ e.isEndpoint = true ∧
          lowerEndpoint (join qs) = some low) := by
  have hcomposable := composable_selfContained
  rcases spell_cases h with ⟨rfl, rfl, rfl⟩ | ⟨rfl, rfl, rfl⟩ |
    ⟨rfl, low, high, hlow, hhigh, hle, rfl⟩ | ⟨_, _, _, b, hparse, hle, rfl⟩
  · obtain ⟨rs, hrs, heq⟩ := hcomposable.exists_expand hqs.selfContained (s := .oneOrMore) nofun
    refine ⟨rs, hrs, ?_, .inl ⟨_, elements_bare (by decide) (by decide) _, rfl, ?_⟩⟩
    · rw [← heq, Suffix.join_oneOrMore]
    · rw [← heq]
      exact infix_grouped ⟨[], qs ++ [bare '*'], by simp⟩
  · obtain ⟨rs, hrs, heq⟩ := hcomposable.exists_expand hqs.selfContained (s := .atMostOnce) nofun
    refine ⟨rs, hrs, ?_, .inl ⟨_, elements_bare (by decide) (by decide) _, rfl, ?_⟩⟩
    · rw [← heq, Suffix.join_atMostOnce]
    · rw [← heq]
      exact infix_alternatives (List.mem_cons_self ..)
  · have hliteral : ∀ c, SelfContained (Piece.literal a c) :=
      fun c => (isOperand_literal ha c).selfContained
    obtain ⟨e, helements, he⟩ := elements_range hhigh
    exact ⟨_, hcomposable.literals hliteral low high, (join_literals a low high).symm,
      .inr (.inr ⟨e, low, helements, he, hlow⟩)⟩
  · obtain ⟨rs, hrs, heq⟩ := hcomposable.exists_repeated hqs.selfContained b
    refine ⟨rs, hrs, by rw [← heq, join_repeated], ?_⟩
    by_cases hb : b.AllowsNone
    · exact .inr (.inl ⟨b, elements_bounds hparse, hb⟩)
    · rw [← heq]
      exact .inl ⟨.bounds b, elements_bounds hparse, rfl, infix_repeated hb hle⟩

end

/-! ### Steps -/

/-- The second list of elements and the chunks before it have become one chunk. -/
inductive Forms : List Chunk → List Element → Chunk → Prop
  /-- A character, or an escaped pair. -/
  | fresh {e : Element} {b : Chunk} (h : b.elements = [e]) : Forms [] [e] b
  /-- An abbreviation that copies its operand. -/
  | copies {taken : List Chunk} {e : Element} {b : Chunk} (h : b.elements = e :: elementsOf taken)
    (hoperand : IsOperand (piecesOf taken).reverse) (hcopies : piecesOf taken <:+: b.pieces) :
    Forms taken [e] b
  /-- A repetition that does not. -/
  | nothing {taken : List Chunk} {bounds : Bounds} {b : Chunk}
    (h : b.elements = .bounds bounds :: elementsOf taken)
    (hoperand : IsOperand (piecesOf taken).reverse) (hwhole : Whole (elementsOf taken))
    (hbounds : bounds.AllowsNone) : Forms taken [.bounds bounds] b
  /-- A range, which only looks at its ends. -/
  | range {taken : List Chunk} {e : Element} {low : Char} {b : Chunk}
    (h : b.elements = e :: .bare '-' :: elementsOf taken)
    (hoperand : IsOperand (piecesOf taken).reverse)
    (hlow : lowerEndpoint (join (piecesOf taken).reverse) = some low)
    (he : e.isEndpoint = true) : Forms taken [.bare '-', e] b

section

variable {a : Alphabet} {bs taken : List Chunk} {used : List Element} {b : Chunk} {c : Char}
  {done after left : Text}

theorem Forms.elements_eq (h : Forms taken used b) :
    b.elements = used.reverse ++ elementsOf taken := by
  cases h with
  | fresh h => rw [h]; rfl
  | copies h => rw [h]; rfl
  | nothing h => rw [h]; rfl
  | range h => rw [h]; rfl

theorem written_cons_plain (hc : Untouched c) (bs : List Chunk) :
    written (.plain c hc :: bs) = c :: written bs := by
  simp [written, Chunk.pieces, text]

theorem written_cons_closed (es : List Element) {rs : List Piece} (hes : Whole es)
    (hrs : SelfContained rs) (bs : List Chunk) :
    written (.closed es rs hes hrs :: bs) = (join (grouped rs)).reverse ++ written bs := by
  simp [written, Chunk.pieces]

theorem replace_written (ha : a.Lacks (operatorChars ++ shorthandChars ++ specialChars))
    (h : replace a (written bs) c after = .ok (done, left)) :
    ∃ taken kept used b, bs = taken ++ kept ∧ done = written (b :: kept) ∧
      elements (c :: after) = used ++ elements left ∧ Forms taken used b := by
  obtain ⟨part, replacement, hpart, hspell, rfl⟩ := replace_eq_ok_iff.1 h
  rw [written, List.reverse_reverse, operandOf_join_eq_ok_iff (complete_piecesOf bs),
    List.reverse_reverse] at hpart
  obtain ⟨found, hfound, rfl⟩ := hpart
  obtain ⟨taken, kept, rfl, rfl, hwhole, hoperand⟩ := operand_piecesOf hfound
  obtain ⟨rs, hrs, rfl, hcases⟩ := spell_spec ha hoperand hspell
  -- the operand makes way for the group
  have hdone : ∀ es (hes : Whole es), (join (grouped rs)).reverse ++
      (written (taken ++ kept)).drop (join (piecesOf taken).reverse).length =
        written (.closed es rs hes hrs :: kept) := by
    intro es hes
    have hlength : (join (piecesOf taken).reverse).length = (written taken).length :=
      (List.length_reverse ..).symm
    rw [written_cons_closed, written_append, hlength, List.drop_left]
  rcases hcases with ⟨e, helements, he, hinfix⟩ | ⟨b, helements, hb⟩ |
    ⟨e, low, helements, he, hlow⟩
  · refine ⟨taken, kept, [e], _, rfl, hdone _ (hwhole.suffix he), helements, ?_⟩
    refine .copies rfl hoperand ?_
    rw [← List.reverse_infix, Chunk.pieces, List.reverse_reverse]
    exact hinfix
  · exact ⟨taken, kept, [.bounds b], _, rfl, hdone _ (hwhole.suffix rfl), helements,
      .nothing rfl hoperand hwhole hb⟩
  · exact ⟨taken, kept, [.bare '-', e], _, rfl,
      hdone _ (hwhole.range (isAtom_of_isEndpoint he)), helements, .range rfl hoperand hlow he⟩

/-- A step puts one chunk in the place of those that it takes. -/
theorem exists_forms (ha : a.Lacks (operatorChars ++ shorthandChars ++ specialChars))
    (h : next a (written bs) c after = .ok (done, left)) :
    ∃ taken kept used b, bs = taken ++ kept ∧ done = written (b :: kept) ∧
      elements (c :: after) = used ++ elements left ∧ Forms taken used b := by
  cases next_eq_ok_iff.1 h with
  | escape d =>
    refine ⟨[], bs, [.escaped d], .closed [.escaped d] [escaped d] (.atom rfl)
      (selfContained_escaped d), rfl, ?_, elements_escape d _, .fresh rfl⟩
    rw [written_cons_closed]
    rfl
  | untouched hc =>
    exact ⟨[], bs, [.bare c], .plain c hc, rfl, (written_cons_plain hc bs).symm,
      hc.elements_cons _, .fresh rfl⟩
  | trigger _ h => exact replace_written ha h

end

/-! ### Runs -/

section

variable {a : Alphabet} {bs taken : List Chunk} {used before es : List Element} {b : Chunk}
  {c : Char} {t u after : Text}

theorem Forms.used_cases (h : Forms taken used b) :
    (∃ e, used = [e]) ∨ ∃ e, used = [.bare '-', e] ∧ e.isEndpoint = true := by
  cases h with
  | fresh | copies | nothing => exact .inl ⟨_, rfl⟩
  | range _ _ _ he => exact .inr ⟨_, rfl, he⟩

/-- A reading that succeeds goes on behind the chunk that its first step makes. -/
theorem expandFrom_forms (ha : a.Lacks (operatorChars ++ shorthandChars ++ specialChars))
    (hu : expandFrom a (written bs) (c :: after) = .ok u) :
    ∃ taken kept used b left, bs = taken ++ kept ∧ elements (c :: after) = used ++ elements left ∧
      Forms taken used b ∧ left.length ≤ after.length ∧
      expandFrom a (written (b :: kept)) left = .ok u := by
  obtain ⟨done, left, hnext, hu⟩ := exists_next_of_expandFrom hu
  obtain ⟨taken, kept, used, b, hbs, rfl, helements, hforms⟩ := exists_forms ha hnext
  exact ⟨taken, kept, used, b, left, hbs, helements, hforms, length_next_le hnext, hu⟩

/-- A reading that succeeds makes chunks of the first elements, wherever these end, unless the next
one is the upper end of a range. -/
theorem exists_chunks (ha : a.Lacks (operatorChars ++ shorthandChars ++ specialChars))
    (hu : expandFrom a (written bs) t = .ok u) (ht : elements t = before ++ es)
    (hcut : before.getLast? = some (.bare '-') → ∀ e ∈ es.head?, e.isEndpoint = false) :
    ∃ bs' t', expandFrom a (written bs') t' = .ok u ∧ elements t' = es ∧
      elementsOf bs' = before.reverse ++ elementsOf bs := by
  induction hlength : t.length using Nat.strong_induction_on generalizing t bs before with
  | _ n ih =>
    cases before with
    | nil => exact ⟨bs, t, hu, ht, rfl⟩
    | cons e before =>
      cases t with
      | nil =>
        rw [elements] at ht
        cases ht
      | cons c after =>
        obtain ⟨taken, kept, used, b, left, rfl, hused, hforms, hleft, hu⟩ :=
          expandFrom_forms ha hu
        have hshort : left.length < n := by
          rw [← hlength]
          exact Nat.lt_succ_of_le hleft
        rw [hused] at ht
        rcases List.append_eq_append_iff.1 ht with ⟨more, hmore, hrest⟩ | ⟨more, hmore, hrest⟩
        · have hcut' : more.getLast? = some (.bare '-') → ∀ e ∈ es.head?, e.isEndpoint = false := by
            intro hlast
            refine hcut ?_
            rw [hmore, List.getLast?_append, hlast]
            rfl
          obtain ⟨bs', t', hu', ht', hbs'⟩ := ih _ hshort hu hrest hcut' rfl
          refine ⟨bs', t', hu', ht', ?_⟩
          rw [hbs', hmore, elementsOf_cons, hforms.elements_eq]
          simp
        · cases more with
          | nil =>
            refine ⟨b :: kept, left, hu, hrest.symm, ?_⟩
            rw [elementsOf_cons, hforms.elements_eq, hmore]
            simp
          | cons d more =>
            -- only the two elements of a range are read at once
            rcases hforms.used_cases with ⟨e', rfl⟩ | ⟨e', rfl, he'⟩
            · simp at hmore
            · cases before with
              | nil =>
                cases hmore
                have hend := hcut rfl d (by rw [hrest]; rfl)
                rw [he'] at hend
                cases hend
              | cons e'' before => simp at hmore

/-- A character that stays as it is makes a chunk of its own. -/
theorem expandFrom_plain (hc : Untouched c) (ht : elements t = .bare c :: es) :
    ∃ t', elements t' = es ∧ ∀ bs, expandFrom a (written bs) t =
      expandFrom a (written (.plain c hc :: bs)) t' := by
  obtain ⟨rest, rfl, hrest⟩ := exists_of_elements_bare hc.1 ht
  refine ⟨rest, hrest, fun bs => ?_⟩
  rw [expandFrom_untouched hc, written_cons_plain]

theorem expandFrom_plain_replicate (hc : Untouched c) (k : Nat)
    (ht : elements t = List.replicate k (.bare c) ++ es) :
    ∃ t', elements t' = es ∧ ∀ bs, expandFrom a (written bs) t =
      expandFrom a (written (List.replicate k (.plain c hc) ++ bs)) t' := by
  induction k generalizing t with
  | zero => exact ⟨t, ht, fun bs => rfl⟩
  | succ k ih =>
    obtain ⟨left, hleft, hfirst⟩ := expandFrom_plain (a := a) hc ht
    obtain ⟨t', ht', hmore⟩ := ih hleft
    refine ⟨t', ht', fun bs => ?_⟩
    rw [hfirst, hmore, List.replicate_succ', List.append_assoc]
    rfl

end

end RegexAutomata
