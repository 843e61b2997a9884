/-
Precedence.

`valueFrom` reads tokens as a program does and evaluates them at once, on a stack of languages and
without indices (`Program.value_ofText`).  Precedence is right if the tokens of each kind of phrase
put the phrase's language on the stack and leave the waiting operators alone:

* `valueFrom_release` — an operator is applied as soon as one is read that it precedes;
* `valueFrom_star` — a star that waits may as well be applied at once;
* `valueFrom_canon` — a phrase, where the operators that wait must not precede it
  (`Level.AfterWaiting`) and the tokens behind it must not belong to it (`Level.BeforeTokens`).
-/
import RegexAutomata.Proofs.Compile.Machine
import RegexAutomata.Proofs.Pattern.Grammar

open scoped Computability

namespace RegexAutomata

/-! ### Evaluation of tokens -/

/-- What waiting operators make of a stack of languages, one after the other. -/
def valueOfOperators (symbols : List Symbol) :
    List Operator → List (Language Symbol) → Option (List (Language Symbol))
  | [], Ls => some Ls
  | o :: os, Ls => (o.value symbols Ls).bind (valueOfOperators symbols os)

/-- What is left on a stack of languages when the tokens have been read and the operators that
wait, the last one first, have been applied. -/
def valueFrom (symbols : List Symbol) (waiting : List Operator) (Ls : List (Language Symbol)) :
    List Token → Option (List (Language Symbol))
  | [] =>
    match waiting.dropWhile (· != .opening) with
    | [] => valueOfOperators symbols (waiting.takeWhile (· != .opening)) Ls
    | _ :: _ => none
  | .atom a :: ts => valueFrom symbols waiting (a.language :: Ls) ts
  | .op .closing :: ts =>
    match waiting.dropWhile (· != .opening) with
    | [] => none
    | _ :: outer =>
      (valueOfOperators symbols (waiting.takeWhile (· != .opening)) Ls).bind fun Ms =>
        valueFrom symbols outer Ms ts
  | .op o :: ts =>
    (valueOfOperators symbols (waiting.takeWhile (·.precedes o)) Ls).bind fun Ms =>
      valueFrom symbols (o :: waiting.dropWhile (·.precedes o)) Ms ts

variable {symbols : List Symbol} {Ls : List (Language Symbol)}

theorem valueFrom_op {o : Operator} (ho : o ≠ .closing) (ws : List Operator)
    (Ls : List (Language Symbol)) (ts : List Token) :
    valueFrom symbols ws Ls (.op o :: ts) =
      (valueOfOperators symbols (ws.takeWhile (·.precedes o)) Ls).bind fun Ms =>
        valueFrom symbols (o :: ws.dropWhile (·.precedes o)) Ms ts := by
  cases o <;> first | rfl | exact absurd rfl ho

theorem valueOf_applyAll (ws : List Waiting) (Ls : List (Language Symbol)) :
    valueOf symbols (Program.applyAll ws) Ls = valueOfOperators symbols (ws.map (·.2)) Ls := by
  induction ws generalizing Ls with
  | nil => rfl
  | cons w ws ih => exact congrArg _ (funext ih)

theorem takeWhile_inGroup (ws : List Waiting) :
    (ws.map (·.2)).takeWhile (· != .opening) = (ws.takeWhile Program.inGroup).map (·.2) :=
  List.takeWhile_map ..

theorem dropWhile_inGroup (ws : List Waiting) :
    (ws.map (·.2)).dropWhile (· != .opening) = (ws.dropWhile Program.inGroup).map (·.2) :=
  List.dropWhile_map ..

theorem Program.ofTokens_op {o : Operator} (ho : o ≠ .closing) (ws : List Waiting)
    (stop : Option Stop) (k : Nat) (ts : List (Nat × Token)) :
    ofTokens ws stop ((k, .op o) :: ts) =
      prepend (applyAll (ws.takeWhile (·.2.precedes o)))
        (ofTokens ((k, o) :: ws.dropWhile (·.2.precedes o)) stop ts) := by
  cases o <;> first | rfl | exact absurd rfl ho

/-- The program of some tokens evaluates them. -/
theorem Program.value_ofTokens (ws : List Waiting) (ts : List (Nat × Token))
    (Ls : List (Language Symbol)) :
    (ofTokens ws none ts).value symbols Ls =
      valueFrom symbols (ws.map (·.2)) Ls (ts.map (·.2)) := by
  induction ts generalizing ws Ls with
  | nil =>
    simp only [ofTokens, value, List.map_nil, valueFrom, takeWhile_inGroup, dropWhile_inGroup,
      valueOf_applyAll]
    cases ws.dropWhile inGroup with
    | nil => rfl
    | cons => rfl
  | cons t ts ih =>
    obtain ⟨k, a | o⟩ := t
    · simp only [ofTokens, value_prepend, ih]
      rfl
    · by_cases ho : o = .closing
      · subst ho
        simp only [ofTokens, List.map_cons, valueFrom, takeWhile_inGroup, dropWhile_inGroup]
        cases ws.dropWhile inGroup with
        | nil => rfl
        | cons w outer =>
          simp only [value_prepend, valueOf_applyAll, List.map_cons, ih]
      · rw [ofTokens_op ho, List.map_cons, valueFrom_op ho, value_prepend, valueOf_applyAll,
          List.takeWhile_map, List.dropWhile_map]
        exact congrArg _ (funext fun Ms => ih _ _)

theorem Program.stop_ofTokens (ws : List Waiting) (s : Stop) (ts : List (Nat × Token)) :
    (ofTokens ws (some s) ts).stop ≠ none := by
  induction ts generalizing ws with
  | nil => exact nofun
  | cons t ts ih =>
    obtain ⟨k, a | o⟩ := t
    · exact ih ws
    · by_cases ho : o = .closing
      · subst ho
        rw [ofTokens]
        split
        · exact nofun
        · exact ih _
      · rw [ofTokens_op ho]
        exact ih _

/-- The program of a text evaluates its tokens, if the whole text could be read. -/
theorem Program.value_ofText (a : Alphabet) (t : Text) :
    (ofText a t).value symbols [] =
      if (scan a t).stop = none then valueFrom symbols [] [] ((scan a t).tokens.map (·.2))
      else none := by
  show (ofTokens [] (scan a t).stop (scan a t).tokens).value symbols [] = _
  cases (scan a t).stop with
  | none =>
    rw [if_pos rfl]
    exact value_ofTokens [] _ []
  | some s =>
    rw [if_neg nofun]
    exact if_neg (stop_ofTokens [] s _)

/-! ### Releasing operators -/

/-- An operator that is not preceded by the one that waits last starts to wait. -/
theorem valueFrom_push {o : Operator} (ho : o ≠ .closing) {ws : List Operator}
    (h : ∀ x ∈ ws.head?, x.precedes o = false) (Ls : List (Language Symbol)) (ts : List Token) :
    valueFrom symbols ws Ls (.op o :: ts) = valueFrom symbols (o :: ws) Ls ts := by
  rw [valueFrom_op ho]
  cases ws with
  | nil => rfl
  | cons x ws =>
    have hx : x.precedes o = false := h x rfl
    rw [List.takeWhile_cons_of_neg (by rw [hx]; decide),
      List.dropWhile_cons_of_neg (by rw [hx]; decide)]
    rfl

/-- The first of the tokens, if there is one, is one of these operators. -/
def StartsWith (os : List Operator) (ts : List Token) : Prop :=
  ∀ t ∈ ts.head?, ∃ o ∈ os, t = .op o

/-- An operator that waits is applied before anything that it precedes, before the end of the
group and at the end. -/
theorem valueFrom_release {o : Operator} (ho : o ≠ .opening) {os : List Operator}
    (hos : ∀ x ∈ os, x = .closing ∨ o.precedes x = true) {ts : List Token} (hts : StartsWith os ts)
    (ws : List Operator) (Ls : List (Language Symbol)) :
    valueFrom symbols (o :: ws) Ls ts =
      (o.value symbols Ls).bind fun Ms => valueFrom symbols ws Ms ts := by
  have hin : (o != .opening) = true := by simpa using ho
  have htake : (o :: ws).takeWhile (· != .opening) = o :: ws.takeWhile (· != .opening) :=
    List.takeWhile_cons_of_pos hin
  have hdrop : (o :: ws).dropWhile (· != .opening) = ws.dropWhile (· != .opening) :=
    List.dropWhile_cons_of_pos hin
  cases ts with
  | nil =>
    -- the operators of the innermost group are applied, this one first
    simp only [valueFrom, htake, hdrop]
    cases ws.dropWhile (· != .opening) with
    | nil => rfl
    | cons => exact (Option.bind_fun_none _).symm
  | cons t ts =>
    obtain ⟨x, hx, rfl⟩ := hts t rfl
    by_cases hclosing : x = .closing
    · subst hclosing
      simp only [valueFrom, htake, hdrop]
      cases ws.dropWhile (· != .opening) with
      | nil => exact (Option.bind_fun_none _).symm
      | cons y outer => exact Option.bind_assoc ..
    · have hprec : o.precedes x = true := (hos x hx).resolve_left hclosing
      have htake : (o :: ws).takeWhile (·.precedes x) = o :: ws.takeWhile (·.precedes x) :=
        List.takeWhile_cons_of_pos hprec
      have hdrop : (o :: ws).dropWhile (·.precedes x) = ws.dropWhile (·.precedes x) :=
        List.dropWhile_cons_of_pos hprec
      simp only [valueFrom_op hclosing, htake, hdrop]
      exact Option.bind_assoc ..

/-- The operators behind a factor and its stars. -/
def StartsBehindStars (ts : List Token) : Prop :=
  StartsWith [.concat, .union, .closing] (ts.dropWhile (· == .op .star))

theorem StartsBehindStars.startsWith {ts : List Token} (h : StartsBehindStars ts) :
    StartsWith [.star, .concat, .union, .closing] ts := by
  cases ts with
  | nil => exact nofun
  | cons t ts =>
    rintro _ ⟨⟩
    by_cases ht : t = .op .star
    · exact ⟨.star, by decide, ht⟩
    · rw [StartsBehindStars, List.dropWhile_cons_of_neg (by simpa using ht)] at h
      obtain ⟨o, ho, rfl⟩ := h t rfl
      exact ⟨o, List.mem_cons_of_mem _ ho, rfl⟩

/-- A star that waits may as well be applied at once. -/
theorem valueFrom_star {ts : List Token} (hts : StartsBehindStars ts) {ws : List Operator}
    (hws : ∀ x ∈ ws.head?, x.precedes .star = false) (L : Language Symbol)
    (Ls : List (Language Symbol)) :
    valueFrom symbols (.star :: ws) (L :: Ls) ts = valueFrom symbols ws (L∗ :: Ls) ts := by
  induction ts generalizing ws L with
  | nil => exact valueFrom_release (by decide) (by decide) hts ws (L :: Ls)
  | cons t ts ih =>
    by_cases ht : t = .op .star
    · subst ht
      have hts : StartsBehindStars ts := hts
      -- both stars wait on the left, and one of them on the right
      have hws' : ∀ x ∈ (Operator.star :: ws).head?, x.precedes .star = false := by
        rintro _ ⟨⟩
        rfl
      rw [valueFrom_push (by decide) hws', valueFrom_push (by decide) hws, ih hts hws']
    · have hts : StartsWith [.concat, .union, .closing] (t :: ts) := by
        rwa [StartsBehindStars, List.dropWhile_cons_of_neg (by simpa using ht)] at hts
      exact valueFrom_release (by decide) (by decide) hts ws (L :: Ls)

/-! ### Phrases -/

/-- The operator of a phrase that binds weakest. -/
def Level.weakest : Level → Operator
  | base => .opening
  | factor => .complement
  | term => .concat
  | expr => .union

/-- No operator that waits takes the start of a phrase of this kind for its end. -/
def Level.AfterWaiting (ws : List Operator) (l : Level) : Prop :=
  ∀ x ∈ ws.head?, x.precedes l.weakest = false

/-- The tokens cannot belong to a phrase of this kind that ends before them. -/
def Level.BeforeTokens (ts : List Token) : Level → Prop
  | base => StartsBehindStars ts
  | factor => StartsBehindStars ts
  | term => StartsWith [.union, .closing] ts
  | expr => StartsWith [.closing] ts

section

variable {ws : List Operator} {ts : List Token}

theorem Level.afterWaiting_cons {l : Level} {o : Operator} (ho : o.precedes l.weakest = false) :
    l.AfterWaiting (o :: ws) := by
  rintro _ ⟨⟩
  exact ho

theorem Level.AfterWaiting.base (h : factor.AfterWaiting ws) : base.AfterWaiting ws := by
  intro x hx
  have hx := h x hx
  cases x <;> first | rfl | cases hx

theorem Level.AfterWaiting.precedes_star (h : factor.AfterWaiting ws) :
    ∀ x ∈ ws.head?, x.precedes .star = false := by
  intro x hx
  have hx := h x hx
  cases x <;> first | rfl | cases hx

theorem Level.AfterWaiting.factor (h : term.AfterWaiting ws) : factor.AfterWaiting ws := by
  intro x hx
  have hx := h x hx
  cases x <;> first | rfl | cases hx

theorem Level.AfterWaiting.term (h : expr.AfterWaiting ws) : term.AfterWaiting ws := by
  intro x hx
  have hx := h x hx
  cases x <;> first | rfl | cases hx

theorem startsWith_cons {o : Operator} {os : List Operator} (ho : o ∈ os) :
    StartsWith os (.op o :: ts) := by
  rintro _ ⟨⟩
  exact ⟨o, ho, rfl⟩

theorem StartsWith.mono {os os' : List Operator} (h : StartsWith os ts) (hos : ∀ o ∈ os, o ∈ os') :
    StartsWith os' ts := by
  intro t ht
  obtain ⟨o, ho, rfl⟩ := h t ht
  exact ⟨o, hos o ho, rfl⟩

theorem StartsWith.behindStars {os : List Operator} (h : StartsWith os ts)
    (hos : ∀ o ∈ os, o ∈ [.concat, .union, .closing]) : StartsBehindStars ts := by
  cases ts with
  | nil => exact nofun
  | cons t ts =>
    obtain ⟨o, ho, rfl⟩ := h t rfl
    have hne : o ≠ .star := by
      rintro rfl
      exact absurd (hos _ ho) (by decide)
    have hdrop : (Token.op o :: ts).dropWhile (· == .op .star) = .op o :: ts :=
      List.dropWhile_cons_of_neg (by simpa using hne)
    rw [StartsBehindStars, hdrop]
    exact startsWith_cons (hos o ho)

end

/-- A phrase puts its language on the stack. -/
theorem valueFrom_canon {l : Level} (e : Canon l) {ws : List Operator} (hws : l.AfterWaiting ws)
    {ts : List Token} (hts : l.BeforeTokens ts) (Ls : List (Language Symbol)) :
    valueFrom symbols ws Ls (e.tokens ++ ts) =
      valueFrom symbols ws (e.denote symbols :: Ls) ts := by
  induction e generalizing ws ts Ls with
  | atom a => rfl
  | group e ih =>
    have hinner : Level.AfterWaiting (.opening :: ws) .expr := Level.afterWaiting_cons rfl
    have hclosing : Level.BeforeTokens (.op .closing :: ts) .expr := startsWith_cons (by decide)
    calc valueFrom symbols ws Ls ((Canon.group e).tokens ++ ts)
        = valueFrom symbols (.opening :: ws) Ls (e.tokens ++ .op .closing :: ts) := by
          rw [Canon.group_tokens_append, valueFrom_push (o := .opening) (by decide) hws]
      _ = valueFrom symbols (.opening :: ws) (e.denote symbols :: Ls) (.op .closing :: ts) :=
          ih hinner hclosing Ls
      _ = valueFrom symbols ws (e.denote symbols :: Ls) ts := rfl
  | ofBase b ih => exact ih hws.base hts Ls
  | complement b ih =>
    have hbase : Level.AfterWaiting (.complement :: ws) .base := Level.afterWaiting_cons rfl
    calc valueFrom symbols ws Ls (.op .complement :: b.tokens ++ ts)
        = valueFrom symbols (.complement :: ws) Ls (b.tokens ++ ts) := by
          rw [List.cons_append, valueFrom_push (o := .complement) (by decide) hws]
      _ = valueFrom symbols (.complement :: ws) (b.denote symbols :: Ls) ts := ih hbase hts Ls
      _ = valueFrom symbols ws (complementIn symbols (b.denote symbols) :: Ls) ts :=
          valueFrom_release (by decide) (by decide) hts.startsWith ws _
  | star f ih =>
    have hstar : Level.BeforeTokens (.op .star :: ts) .factor := hts
    calc valueFrom symbols ws Ls ((Canon.star f).tokens ++ ts)
        = valueFrom symbols ws Ls (f.tokens ++ .op .star :: ts) := by
          rw [Canon.star_tokens_append]
      _ = valueFrom symbols ws (f.denote symbols :: Ls) (.op .star :: ts) :=
          ih hws hstar Ls
      _ = valueFrom symbols (.star :: ws) (f.denote symbols :: Ls) ts :=
          valueFrom_push (by decide) hws.precedes_star _ _
      _ = valueFrom symbols ws ((f.denote symbols)∗ :: Ls) ts :=
          valueFrom_star hts hws.precedes_star _ Ls
  | ofFactor f ih => exact ih hws.factor (hts.behindStars (by decide)) Ls
  | concat f t ihf iht =>
    have hterm : Level.AfterWaiting (.concat :: ws) .term := Level.afterWaiting_cons rfl
    have hconcat : Level.BeforeTokens (.op .concat :: (t.tokens ++ ts)) .factor := by
      have hfirst : StartsWith [.concat] (.op .concat :: (t.tokens ++ ts)) :=
        startsWith_cons (by decide)
      exact hfirst.behindStars (by decide)
    calc valueFrom symbols ws Ls ((Canon.concat f t).tokens ++ ts)
        = valueFrom symbols ws Ls (f.tokens ++ .op .concat :: (t.tokens ++ ts)) := by
          rw [Canon.concat_tokens_append]
      _ = valueFrom symbols ws (f.denote symbols :: Ls) (.op .concat :: (t.tokens ++ ts)) :=
          ihf hws.factor hconcat Ls
      _ = valueFrom symbols (.concat :: ws) (f.denote symbols :: Ls) (t.tokens ++ ts) :=
          valueFrom_push (by decide) hws _ _
      _ = valueFrom symbols (.concat :: ws) (t.denote symbols :: f.denote symbols :: Ls) ts :=
          iht hterm hts _
      _ = valueFrom symbols ws (f.denote symbols * t.denote symbols :: Ls) ts :=
          valueFrom_release (by decide) (by decide) hts ws _
  | ofTerm t ih => exact ih hws.term (hts.mono (by decide)) Ls
  | union t e iht ihe =>
    have hexpr : Level.AfterWaiting (.union :: ws) .expr := Level.afterWaiting_cons rfl
    have hunion : Level.BeforeTokens (.op .union :: (e.tokens ++ ts)) .term :=
      startsWith_cons (by decide)
    calc valueFrom symbols ws Ls ((Canon.union t e).tokens ++ ts)
        = valueFrom symbols ws Ls (t.tokens ++ .op .union :: (e.tokens ++ ts)) := by
          rw [Canon.union_tokens_append]
      _ = valueFrom symbols ws (t.denote symbols :: Ls) (.op .union :: (e.tokens ++ ts)) :=
          iht hws.term hunion Ls
      _ = valueFrom symbols (.union :: ws) (t.denote symbols :: Ls) (e.tokens ++ ts) :=
          valueFrom_push (by decide) hws _ _
      _ = valueFrom symbols (.union :: ws) (e.denote symbols :: t.denote symbols :: Ls) ts :=
          ihe hexpr hts _
      _ = valueFrom symbols ws ((t.denote symbols + e.denote symbols) :: Ls) ts :=
          valueFrom_release (by decide) (by decide) hts ws _

/-- The tokens of a whole pattern leave its language and nothing else. -/
theorem valueFrom_expr (e : Canon .expr) :
    valueFrom symbols [] [] e.tokens = some [e.denote symbols] := by
  have hws : Level.AfterWaiting [] .expr := nofun
  have hts : Level.BeforeTokens [] .expr := nofun
  calc valueFrom symbols [] [] e.tokens = valueFrom symbols [] [] (e.tokens ++ []) := by
        rw [List.append_nil]
    _ = valueFrom symbols [] [e.denote symbols] [] := valueFrom_canon e hws hts []
    _ = some [e.denote symbols] := rfl

end RegexAutomata
