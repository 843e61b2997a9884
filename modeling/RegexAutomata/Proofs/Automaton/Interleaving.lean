/-
One automaton in use.

Sequences are read with an automaton at once or bit by bit, in any order and with remembering
switched on and off in between (`Use`).  Nothing of this changes the graph, and the automaton keeps
its start and its accepting vertices.

* `Visit.feed_spec` — where a visit is after some symbols;
* `Usage.Sound.step` — one use keeps the notes faithful, and each visit at the vertices that what
  it was fed leads to;
* `Usage.visit_of_failed` — a visit that has failed does not change any more;
* `Usage.verdicts_of_run` — the verdicts after any number of uses.
-/
import Mathlib.Algebra.Ring.Parity
import RegexAutomata.Proofs.Automaton.Remembering

namespace RegexAutomata

/-! ### Visits -/

namespace Visit

variable {x : Acceptor} {g : Graph}

/-- A visit that has failed ignores what it is fed. -/
theorem feed_of_failed {v : Visit} (hv : v.failed = true) (g : Graph) (x : Acceptor)
    (w : List Symbol) : feed g x v w = (x, v) := by
  induction w with
  | nil => rfl
  | cons s w ih =>
    rw [feed, read, if_pos hv]
    exact ih

theorem read_spec (h : x.Faithful g) (v : Visit) (s : Symbol) :
    (v.read x g s).2.state = g.advance v.state s ∧ (v.read x g s).1.Faithful g ∧
      (v.read x g s).1.automaton = x.automaton := by
  unfold read
  by_cases hv : v.failed = true
  · -- no edge leaves the empty set either
    have hsame : v.state = g.advance v.state s := by
      have hempty : (g.advance v.state s).isEmpty = true := Graph.frontier_of_isEmpty hv [s]
      refine VertexSet.ext fun u => iff_of_false ?_ ?_
      · exact VertexSet.isEmpty_iff.1 hv u
      · exact VertexSet.isEmpty_iff.1 hempty u
    rw [if_pos hv]
    exact ⟨hsame, h, rfl⟩
  · rw [if_neg hv]
    exact Acceptor.advance_spec h v.state s

/-- A visit goes where the symbols lead, and keeps the notes faithful. -/
theorem feed_spec (h : x.Faithful g) (v : Visit) (w : List Symbol) :
    (feed g x v w).2.state = g.frontier v.state w ∧ (feed g x v w).1.Faithful g ∧
      (feed g x v w).1.automaton = x.automaton := by
  induction w generalizing x v with
  | nil => exact ⟨rfl, h, rfl⟩
  | cons s w ih =>
    obtain ⟨h1, h2, h3⟩ := read_spec h v s
    obtain ⟨k1, k2, k3⟩ := ih h2 (v.read x g s).2
    refine ⟨?_, k2, k3.trans h3⟩
    rw [show g.frontier v.state (s :: w) = g.frontier (g.advance v.state s) w from rfl, ← h1]
    exact k1

/-- A visit is successful if and only if it is at a final vertex. -/
theorem success_eq (v : Visit) (a : Automaton) : v.success a = a.isFinal v.state := by
  rw [success, Bool.and_eq_right_iff_imp]
  intro hfinal
  obtain ⟨u, hu, _⟩ := Automaton.isFinal_iff.1 hfinal
  rw [Bool.not_eq_true', failed]
  exact Bool.eq_false_iff.2 fun hempty => VertexSet.isEmpty_iff.1 hempty u hu

end Visit

/-! ### Uses -/

/-- A visit, and all that it has been fed. -/
structure Reader where
  visit : Visit
  fed : List Symbol
deriving DecidableEq

/-- An automaton, and the readers that have started on it, the first one first. -/
structure Usage where
  acceptor : Acceptor
  readers : List Reader

/-- What can be done with an automaton without a change to its graph. -/
inductive Use where
  | accepts (w : List Symbol)
  /-- A new reader starts. -/
  | visit
  /-- A reader goes on; readers are counted from zero. -/
  | feed (i : Nat) (w : List Symbol)
  /-- A symbol is read from any set of vertices. -/
  | advance (src : VertexSet) (s : Symbol)
  | enableCaching
  | disableCaching
  | clearMemo
  | markDeterministic (value : Bool)
  | invert

/-- Do accepting vertices and the others change places? -/
def Use.inverts : Use → Bool
  | invert => true
  | _ => false

namespace Usage

/-- What is left after one use; a reader that has not started cannot be fed. -/
def step (g : Graph) (u : Usage) : Use → Usage
  | .accepts w => { u with acceptor := (u.acceptor.accepts g w).1 }
  | .visit => { u with readers := u.readers ++ [⟨.start u.acceptor.automaton g, []⟩] }
  | .feed i w =>
    match u.readers[i]? with
    | none => u
    | some r =>
      let (x, v) := r.visit.feed g u.acceptor w
      ⟨x, u.readers.set i ⟨v, r.fed ++ w⟩⟩
  | .advance src s => { u with acceptor := (u.acceptor.advance g src s).1 }
  | .enableCaching => { u with acceptor := u.acceptor.enableCaching }
  | .disableCaching => { u with acceptor := u.acceptor.disableCaching }
  | .clearMemo => { u with acceptor := u.acceptor.clearMemo }
  | .markDeterministic value => { u with acceptor := u.acceptor.markDeterministic value }
  | .invert => { u with acceptor := u.acceptor.invert }

/-- What is left after some uses, one after the other. -/
def run (g : Graph) (u : Usage) (uses : List Use) : Usage := uses.foldl (step g) u

/-- The notes are faithful, the automaton has its start and its accepting vertices, and each
reader is where what it was fed leads to. -/
structure Sound (g : Graph) (a : Automaton) (u : Usage) : Prop where
  faithful : u.acceptor.Faithful g
  start : u.acceptor.automaton.start = a.start
  accepting : u.acceptor.automaton.accepting = a.accepting
  readers : ∀ r ∈ u.readers, r.visit.state = g.frontier (a.initial g) r.fed

variable {g : Graph} {a : Automaton} {u : Usage}

theorem Sound.of_new (g : Graph) (a : Automaton) (caching : Bool) :
    Sound g a ⟨⟨a, caching, .empty⟩, []⟩ where
  faithful := by
    intro src s dst h
    rw [Memo.get?_empty] at h
    cases h
  start := rfl
  accepting := rfl
  readers := by simp

/-- Another acceptor for the same automaton. -/
theorem Sound.withAcceptor (h : Sound g a u) {x : Acceptor} (hx : x.Faithful g)
    (hsame : x.automaton = u.acceptor.automaton) : Sound g a { u with acceptor := x } where
  faithful := hx
  start := by
    rw [hsame]
    exact h.start
  accepting := by
    rw [hsame]
    exact h.accepting
  readers := h.readers

/-- One use keeps everything in order. -/
theorem Sound.step (h : Sound g a u) (use : Use) : Sound g a (u.step g use) := by
  cases use with
  | accepts w =>
    obtain ⟨_, hfaithful, hsame⟩ := Acceptor.accepts_spec h.faithful w
    exact h.withAcceptor hfaithful hsame
  | visit =>
    refine ⟨h.faithful, h.start, h.accepting, fun r hr => ?_⟩
    rcases List.mem_append.1 hr with hr | hr
    · exact h.readers r hr
    · rw [List.mem_singleton.1 hr]
      show u.acceptor.automaton.initial g = a.initial g
      rw [Automaton.initial, Automaton.initial, h.start]
  | feed i w =>
    cases hi : u.readers[i]? with
    | none =>
      simp only [Usage.step, hi]
      exact h
    | some r =>
      obtain ⟨hstate, hfaithful, hsame⟩ := Visit.feed_spec h.faithful r.visit w
      have hfed := h.withAcceptor hfaithful hsame
      simp only [Usage.step, hi]
      refine ⟨hfed.faithful, hfed.start, hfed.accepting, fun r' hr' => ?_⟩
      rcases List.mem_or_eq_of_mem_set hr' with hr' | rfl
      · exact h.readers r' hr'
      · -- what is fed now comes after what was fed before
        have hr := h.readers r (List.mem_of_getElem? hi)
        rw [hstate, hr]
        exact List.foldl_append.symm
  | advance src s =>
    obtain ⟨_, hfaithful, hsame⟩ := Acceptor.advance_spec h.faithful src s
    exact h.withAcceptor hfaithful hsame
  | enableCaching => exact h.withAcceptor (x := u.acceptor.enableCaching) h.faithful rfl
  | disableCaching => exact h.withAcceptor (x := u.acceptor.disableCaching) h.faithful rfl
  | clearMemo =>
    refine h.withAcceptor (x := u.acceptor.clearMemo) (fun src s dst hnote => ?_) rfl
    rw [Acceptor.clearMemo, Memo.get?_empty] at hnote
    cases hnote
  | markDeterministic value => exact ⟨h.faithful, h.start, h.accepting, h.readers⟩
  | invert => exact ⟨h.faithful, h.start, h.accepting, h.readers⟩

theorem Sound.run (h : Sound g a u) (uses : List Use) : Sound g a (u.run g uses) := by
  induction uses generalizing u with
  | nil => exact h
  | cons use uses ih => exact ih (h.step use)

/-! ### Verdicts -/

theorem Sound.accepts_eq (h : Sound g a u) (w : List Symbol) :
    (u.acceptor.accepts g w).2 =
      { a with inverted := u.acceptor.automaton.inverted }.accepts g w := by
  obtain ⟨haccepts, _, _⟩ := Acceptor.accepts_spec h.faithful w
  have hfinal : u.acceptor.automaton.isFinal =
      { a with inverted := u.acceptor.automaton.inverted }.isFinal := by
    funext s
    simp only [Automaton.isFinal, h.accepting]
  rw [haccepts, Automaton.accepts, Automaton.accepts, Automaton.acceptsFrom_eq,
    Automaton.acceptsFrom_eq, hfinal, Automaton.initial, h.start]
  rfl

/-- A reader reports what the automaton would answer to all that the reader was fed. -/
theorem Sound.success_eq (h : Sound g a u) {r : Reader} (hr : r ∈ u.readers) :
    r.visit.success u.acceptor.automaton = (u.acceptor.accepts g r.fed).2 := by
  obtain ⟨haccepts, _, _⟩ := Acceptor.accepts_spec h.faithful r.fed
  have hinitial : u.acceptor.automaton.initial g = a.initial g := by
    rw [Automaton.initial, Automaton.initial, h.start]
  rw [Visit.success_eq, h.readers r hr, haccepts, Automaton.accepts, Automaton.acceptsFrom_eq,
    hinitial]

/-- Where a reader has failed, no continuation is accepted, inverted or not. -/
theorem Sound.rejects_of_failed (h : Sound g a u) {r : Reader} (hr : r ∈ u.readers)
    (hfailed : r.visit.failed = true) (w : List Symbol) (inverted : Bool) :
    { a with inverted }.accepts g (r.fed ++ w) = false := by
  have hempty : (g.frontier (a.initial g) (r.fed ++ w)).isEmpty = true := by
    rw [show g.frontier (a.initial g) (r.fed ++ w) = g.frontier r.visit.state w by
      rw [h.readers r hr]; exact List.foldl_append]
    exact Graph.frontier_of_isEmpty hfailed w
  refine Bool.eq_false_iff.2 fun haccepts => ?_
  rw [Automaton.accepts, Automaton.acceptsFrom_eq, Automaton.isFinal_iff] at haccepts
  obtain ⟨v, hv, _⟩ := haccepts
  exact VertexSet.isEmpty_iff.1 hempty v hv

/-- A reader that has failed stays where it is, and is only fed more. -/
theorem step_of_failed {i : Nat} {r : Reader} (hi : u.readers[i]? = some r)
    (hfailed : r.visit.failed = true) (use : Use) :
    ∃ w, (u.step g use).readers[i]? = some ⟨r.visit, r.fed ++ w⟩ := by
  have hsame : u.readers[i]? = some ⟨r.visit, r.fed ++ []⟩ := by rw [hi, List.append_nil]
  have hlt : i < u.readers.length := (List.getElem?_eq_some_iff.1 hi).1
  cases use with
  | visit => exact ⟨[], (List.getElem?_append_left hlt).trans hsame⟩
  | feed j w =>
    by_cases hij : j = i
    · subst hij
      refine ⟨w, ?_⟩
      simp only [step, hi, Visit.feed_of_failed hfailed]
      exact List.getElem?_set_self hlt
    · refine ⟨[], Eq.trans ?_ hsame⟩
      cases hj : u.readers[j]? with
      | none => simp only [step, hj]
      | some r' =>
        simp only [step, hj]
        exact List.getElem?_set_ne hij
  | _ => exact ⟨[], hsame⟩

theorem visit_of_failed {i : Nat} {r : Reader} (hi : u.readers[i]? = some r)
    (hfailed : r.visit.failed = true) (uses : List Use) :
    ∃ w, (u.run g uses).readers[i]? = some ⟨r.visit, r.fed ++ w⟩ := by
  induction uses generalizing u r with
  | nil => exact ⟨[], by rw [List.append_nil]; exact hi⟩
  | cons use uses ih =>
    obtain ⟨w, hw⟩ := step_of_failed (g := g) hi hfailed use
    obtain ⟨w', hw'⟩ := ih hw hfailed
    exact ⟨w ++ w', by rw [← List.append_assoc]; exact hw'⟩

/-! ### Inversion -/

theorem Sound.inverted_step (h : Sound g a u) (use : Use) :
    (u.step g use).acceptor.automaton.inverted =
      (u.acceptor.automaton.inverted ^^ use.inverts) := by
  have hxor : ∀ b : Bool, b = (b ^^ false) := fun b => (Bool.xor_false b).symm
  cases use with
  | accepts w =>
    obtain ⟨_, _, hsame⟩ := Acceptor.accepts_spec h.faithful w
    exact (congrArg Automaton.inverted hsame).trans (hxor _)
  | feed i w =>
    cases hi : u.readers[i]? with
    | none =>
      simp only [Usage.step, hi]
      exact hxor _
    | some r =>
      obtain ⟨_, _, hsame⟩ := Visit.feed_spec h.faithful r.visit w
      simp only [Usage.step, hi]
      exact (congrArg Automaton.inverted hsame).trans (hxor _)
  | advance src s =>
    obtain ⟨_, _, hsame⟩ := Acceptor.advance_spec h.faithful src s
    exact (congrArg Automaton.inverted hsame).trans (hxor _)
  | invert => exact (Bool.xor_true _).symm
  | _ => exact hxor _

/-- The automaton is inverted back by every other inversion. -/
theorem Sound.inverted_run (h : Sound g a u) (uses : List Use) :
    (u.run g uses).acceptor.automaton.inverted =
      (u.acceptor.automaton.inverted ^^ decide (Odd (uses.countP Use.inverts))) := by
  induction uses generalizing u with
  | nil => exact (Bool.xor_false _).symm
  | cons use uses ih =>
    rw [show u.run g (use :: uses) = (u.step g use).run g uses from rfl, ih (h.step use),
      h.inverted_step use, Bool.xor_assoc]
    refine congrArg _ ?_
    cases huse : use.inverts with
    | false => rw [Bool.false_xor, List.countP_cons_of_neg (by rw [huse]; decide)]
    | true =>
      rw [Bool.true_xor, List.countP_cons_of_pos huse, ← decide_not]
      exact decide_eq_decide.2 Nat.odd_add_one.symm

/-! ### Any number of uses -/

/-- However an automaton without notes has been used: each note says what can be reached by one
symbol, a sequence is accepted as if nothing were remembered, and each reader reports what the
automaton would answer to all that the reader was fed.  A reader that has failed never changes
again, and nothing that starts with what it was fed is accepted, inverted or not. -/
theorem verdicts_of_run (g : Graph) (a : Automaton) (caching : Bool) (uses : List Use) :
    let u := run g ⟨⟨a, caching, .empty⟩, []⟩ uses
    (∀ src s dst, u.acceptor.memo.get? src s = some dst → dst = g.closure (g.step src s)) ∧
      (∀ src s, (u.acceptor.advance g src s).2 = g.closure (g.step src s)) ∧
      (∀ w, (u.acceptor.accepts g w).2 =
        { a with inverted := a.inverted ^^ decide (Odd (uses.countP Use.inverts)) }.accepts g w) ∧
      (∀ r ∈ u.readers,
        r.visit.success u.acceptor.automaton = (u.acceptor.accepts g r.fed).2) ∧
      ∀ (i : Nat) (r : Reader), u.readers[i]? = some r → r.visit.failed = true →
        (∀ more, ∃ w, (u.run g more).readers[i]? = some ⟨r.visit, r.fed ++ w⟩) ∧
          ∀ w inverted, { a with inverted }.accepts g (r.fed ++ w) = false := by
  intro u
  have hnew : Sound g a ⟨⟨a, caching, .empty⟩, []⟩ := .of_new g a caching
  have hsound : Sound g a u := hnew.run uses
  refine ⟨hsound.faithful, fun src s => (Acceptor.advance_spec hsound.faithful src s).1,
    fun w => ?_, fun r hr => hsound.success_eq hr,
    fun i r hi hfailed => ⟨visit_of_failed hi hfailed, ?_⟩⟩
  · rw [hsound.accepts_eq w, hnew.inverted_run uses]
  · exact hsound.rejects_of_failed (List.mem_of_getElem? hi) hfailed

/-- The automaton of the symbol `a`, and its graph. -/
def oneEdge : Builder × Automaton := Builder.new.atom (.one "a")

/-- A reader goes wrong while the automaton is asked about something else and inverted. -/
def strayReader : List Use :=
  [.visit, .feed 0 ["a"], .accepts ["a", "b"], .invert, .feed 0 ["b"], .disableCaching]

theorem verdicts_of_run_strayReader :
    (run oneEdge.1.graph ⟨⟨oneEdge.2, true, .empty⟩, []⟩ strayReader).readers[0]? =
        some ⟨⟨.empty⟩, ["a", "b"]⟩ ∧
      { oneEdge.2 with inverted := true }.accepts oneEdge.1.graph ["a", "b", "a"] = false ∧
      ((run oneEdge.1.graph ⟨⟨oneEdge.2, true, .empty⟩, []⟩ strayReader).acceptor.accepts
        oneEdge.1.graph ["a"]).2 = false := by
  obtain ⟨_, _, haccepts, _, hfailed⟩ :=
    verdicts_of_run oneEdge.1.graph oneEdge.2 true strayReader
  have hreader : (run oneEdge.1.graph ⟨⟨oneEdge.2, true, .empty⟩, []⟩ strayReader).readers[0]? =
      some ⟨⟨.empty⟩, ["a", "b"]⟩ := by
    decide +kernel
  refine ⟨hreader, (hfailed 0 _ hreader rfl).2 ["a"] true, ?_⟩
  rw [haccepts]
  decide +kernel

end Usage

end RegexAutomata
