/-
Lines that make no difference.

Some lines only set or clear the caches, or try to compile a pattern that there is no automaton for.
The forgetful shell says what it says without them, and it stands where it stands without them.  So
two runs of the shell can be compared in which different such lines are put between the others, with
different clocks, one with caches from the start and one without.

* `Course.essence_runLines` — the course of lines without those that make no difference;
* `Shows.alike` — what is printed for the same differs only in times;
* `run_alike` — two runs.
-/
import RegexAutomata.Proofs.Shell.Forgetful

namespace RegexAutomata.Shell

/-! ### Lines without effect -/

/-- The line does not just set or clear the caches, or fail to compile a pattern. -/
def essential (line : Text) : Bool :=
  match readLine line with
  | .ok (some (.cache (some _))) => false
  | .ok (some (.compile _ p)) => (Generator.standard.generate p).2.isOk
  | _ => true

/-- The course of the lines without those that are not essential. -/
def Course.essence (c : Course) : Course :=
  { c with turns := c.turns.filter fun t => essential t.1 }

section

variable {w : Surroundings} {run : List Text → Text → Turn} {line : Text}

theorem answer_of_isOk {p : Text} (h : (Generator.standard.generate p).2.isOk = false) :
    ∃ e, answer p = .error e := by
  cases hp : (Generator.standard.generate p).2 with
  | error e => exact ⟨e, answer_eq_error hp⟩
  | ok i =>
    rw [hp] at h
    cases h

theorem execute_of_not_essential (hline : essential line = false) (depth : Nat)
    (past : List Text) :
    (w.execute depth past line).past = past ∧
      (w.execute depth past line).status = .succeeded := by
  unfold essential at hline
  split at hline
  · rename_i action hread
    cases depth <;> simp only [Surroundings.execute, hread, Surroundings.perform, and_self]
  · rename_i verbose p hread
    obtain ⟨e, he⟩ := answer_of_isOk hline
    cases depth <;> simp only [Surroundings.execute, hread, Surroundings.perform, he, and_self]
  · cases hline

theorem Course.essence_cons (line : Text) (t : Turn) (c : Course) :
    (c.cons line t).essence = if essential line then c.essence.cons line t else c.essence := by
  unfold essence cons
  rw [List.filter_cons]
  split <;> rfl

/-- Lines that are not essential can be left out. -/
theorem Course.essence_runLines
    (hrun : ∀ line, essential line = false → ∀ past,
      (run past line).past = past ∧ (run past line).status = .succeeded)
    (exitFirst : Bool) (past : List Text) (lines : List Text) :
    (Surroundings.runLines run exitFirst past lines).essence =
      Surroundings.runLines run exitFirst past (lines.filter essential) := by
  induction lines generalizing past with
  | nil => rfl
  | cons line rest ih =>
    rw [List.filter_cons]
    cases hline : essential line with
    | false =>
      obtain ⟨hpast, hstatus⟩ := hrun line hline past
      simp only [Surroundings.runLines, essence_cons, hline, hpast, hstatus, Bool.false_eq_true,
        if_false, ih]
    | true =>
      simp only [Surroundings.runLines, essence_cons, hline, if_true]
      refine congrArg (cons line _) ?_
      cases (run past line).status with
      | exit code => rfl
      | failed =>
        cases exitFirst
        · exact ih _
        · rfl
      | succeeded => exact ih _

end

/-! ### Lines that are printed -/

/-- The lines differ at most in times. -/
inductive Alike : Line → Line → Prop where
  | refl (l : Line) : Alike l l
  | verdict (string : Text) (accepted : Bool) (elapsed elapsed' : Float) :
    Alike (verdictLine string accepted elapsed) (verdictLine string accepted elapsed')
  | compiled (canonical : Text) (elapsed elapsed' : Float) :
    Alike (compiledLine canonical elapsed) (compiledLine canonical elapsed')

theorem Said.Shown.alike {x : Said} {lines lines' : List Line} (h : x.Shown lines)
    (h' : x.Shown lines') (hx : x ≠ .cacheReport) : List.Forall₂ Alike lines lines' := by
  cases h with
  | line l =>
    cases h'
    exact .cons (.refl l) .nil
  | verdict string accepted elapsed =>
    cases h'
    exact .cons (.verdict string accepted _ _) .nil
  | compiled canonical elapsed =>
    cases h'
    exact .cons (.compiled canonical _ _) .nil
  | cacheReport s => exact absurd rfl hx

/-- What is printed for the same is alike, unless it is about the caches. -/
theorem Shows.alike {said : List Said} {lines lines' : List Line} (h : Shows said lines)
    (h' : Shows said lines') (hsaid : .cacheReport ∉ said) : List.Forall₂ Alike lines lines' := by
  induction h generalizing lines' with
  | nil =>
    cases h'
    exact .nil
  | cons hx _ ih =>
    rw [List.mem_cons, not_or] at hsaid
    cases h' with
    | cons hx' hmore => exact List.rel_append (hx.alike hx' (Ne.symm hsaid.1)) (ih hmore hsaid.2)

section

variable {w : Surroundings}

theorem cacheReport_not_mem_lines (lines : List Line) : .cacheReport ∉ lines.map Said.line := by
  simp

theorem cacheReport_not_mem_compiled (verbose : Bool) (p : Text) :
    .cacheReport ∉ saidCompiled verbose p := by
  unfold saidCompiled
  split <;> simp

theorem cacheReport_not_mem_verdicts (accepts : List Symbol → Bool) (strings : List Text) :
    .cacheReport ∉ saidVerdicts accepts strings := by
  simp [saidVerdicts]

theorem cacheReport_not_mem_searchFiles (literal : Bool) (phrase : Text) (paths : List String) :
    .cacheReport ∉ (w.searchFiles literal phrase paths).1 := by
  induction paths with
  | nil => exact List.not_mem_nil
  | cons path rest ih =>
    unfold Surroundings.searchFiles
    split
    · exact cacheReport_not_mem_lines _
    · split
      · exact cacheReport_not_mem_lines [_]
      · rw [List.mem_append, not_or]
        exact ⟨cacheReport_not_mem_lines _, ih⟩

/-- Only a line that asks for them says something about the caches. -/
theorem cacheReport_not_mem_execute {line : Text} {c : Command}
    (hline : readLine line = .ok (some c)) (hcache : c ≠ .cache none)
    (hsource : ∀ files, c ≠ .source files) (depth : Nat) (past : List Text) :
    .cacheReport ∉ (w.execute depth past line).said := by
  have hperform : ∀ run, .cacheReport ∉ (w.perform run past c).said := by
    intro run
    cases c with
    | compile verbose p =>
      simp only [Surroundings.perform]
      split
      · exact cacheReport_not_mem_lines _
      · exact cacheReport_not_mem_compiled verbose p
    | test strings =>
      simp only [Surroundings.perform]
      split
      · exact cacheReport_not_mem_lines [_]
      · split
        · exact cacheReport_not_mem_lines _
        · exact cacheReport_not_mem_verdicts _ strings
    | matchStrings verbose p strings =>
      simp only [Surroundings.perform]
      split
      · exact cacheReport_not_mem_lines _
      · rw [List.mem_append, not_or]
        exact ⟨cacheReport_not_mem_compiled verbose p, cacheReport_not_mem_verdicts _ strings⟩
    | elongate p =>
      simp only [Surroundings.perform, saidCanonical]
      split
      · exact cacheReport_not_mem_lines [_]
      · exact cacheReport_not_mem_lines [_]
    | search literal phrase files => exact cacheReport_not_mem_searchFiles literal phrase files
    | cache action =>
      cases action with
      | none => exact absurd rfl hcache
      | some action => exact List.not_mem_nil
    | quit => exact List.not_mem_nil
    | source files => exact absurd rfl (hsource files)
    | help command => exact cacheReport_not_mem_lines _
  cases depth <;> simp only [Surroundings.execute, hline] <;> exact hperform _

end

/-! ### Two runs -/

/-- The shell when it is started, with caches or without. -/
def State.Initial (s : State) : Prop := s = .new ∨ s = State.new.cacheOff

theorem State.Initial.stands {s : State} (hs : s.Initial) : Stands [] s := by
  rcases hs with rfl | rfl
  · exact stands_new
  · exact stands_new.cache (some .off)

/-- Two runs whose essential lines are the same end in the same way.  Both leave in use the pattern
of the last compilation that has succeeded, and an automaton that accepts what that of a new
generator does; this is so after every line, since the first lines of a run are a run.  They print
what the forgetful shell says, and it says the same for each essential line.  What they print for
the line that comes next differs only in times, unless it asks for the caches or runs files, which
can ask for them. -/
theorem run_alike (w : Surroundings) (depth : Nat) (exitFirst : Bool) (first second : List Text)
    (hsame : second.filter essential = first.filter essential) (s s' : State) (hs : s.Initial)
    (hs' : s'.Initial) {σ σ' : Type} (host : Host (StateM σ)) (host' : Host (StateM σ'))
    (hhost : host.IsIn w) (hhost' : host'.IsIn w) (world : σ) (world' : σ') :
    let course := Surroundings.runLines (w.execute depth) exitFirst [] first
    let course' := Surroundings.runLines (w.execute depth) exitFirst [] second
    let o := ((runLines (execute host depth) exitFirst s first).run world).1
    let o' := ((runLines (execute host' depth) exitFirst s' second).run world').1
    (o.status = course.status ∧ o'.status = course.status) ∧
      (o.state.Uses course.past.head? ∧ o'.state.Uses course.past.head?) ∧
      (Shows course.said o.lines ∧ Shows course'.said o'.lines ∧
        course'.essence = course.essence) ∧
      ∀ line c, readLine line = .ok (some c) → c ≠ .cache none → (∀ files, c ≠ .source files) →
        ∀ later later',
          let next := ((execute host depth o.state line).run later).1
          let next' := ((execute host' depth o'.state line).run later').1
          next.status = next'.status ∧ List.Forall₂ Alike next.lines next'.lines := by
  intro course course' o o'
  have hessence : course'.essence = course.essence := by
    have hrun : ∀ line, essential line = false → ∀ past, (w.execute depth past line).past = past ∧
        (w.execute depth past line).status = .succeeded :=
      fun _ hline => execute_of_not_essential hline depth
    rw [Course.essence_runLines hrun, Course.essence_runLines hrun, hsame]
  have hpast : course'.essence.past = course.essence.past := by rw [hessence]
  have hstatus : course'.essence.status = course.essence.status := by rw [hessence]
  have hfits : Fits course.turn o :=
    runLines_fits (execute_fits host hhost depth) hs.stands exitFirst first world
  have hfits' : Fits course'.turn o' :=
    runLines_fits (execute_fits host' hhost' depth) hs'.stands exitFirst second world'
  have hstands' : Stands course.past o'.state := hpast ▸ hfits'.stands
  refine ⟨⟨hfits.status, hfits'.status.trans hstatus⟩, ⟨hfits.stands.uses, hstands'.uses⟩,
    ⟨hfits.lines, hfits'.lines, hessence⟩, ?_⟩
  intro line c hread hcache hsource later later' next next'
  have hnext := execute_fits host hhost depth course.past o.state line hfits.stands later
  have hnext' := execute_fits host' hhost' depth course.past o'.state line hstands' later'
  exact ⟨hnext.status.trans hnext'.status.symm, hnext.lines.alike hnext'.lines
    (cacheReport_not_mem_execute hread hcache hsource depth course.past)⟩

/-- These surroundings with a clock. -/
def Surroundings.host {σ : Type} (w : Surroundings) (clock : StateM σ Float) : Host (StateM σ) :=
  ⟨w.home, fun path => pure (w.read path), clock⟩

theorem Surroundings.isIn_host {σ : Type} (w : Surroundings) (clock : StateM σ Float) :
    (w.host clock).IsIn w :=
  ⟨rfl, fun _ => rfl⟩

/-- One file, in which a pattern is compiled. -/
def oneFile : Surroundings :=
  ⟨"", fun path => if path = "f" then .ok "compile b".toList else .error .notFound⟩

/-- One pattern is compiled, another one in a file, and a string is tried. -/
def fewLines : List Text :=
  ["compile --verbose a".toList, "source f".toList, "test b".toList]

/-- The same, but the caches are switched off and on and cleared, and one more pattern cannot be
compiled. -/
def moreLines : List Text :=
  ["cache off".toList, "compile --verbose a".toList, "compile (a".toList, "cache clear".toList,
    "source f".toList, "cache on".toList, "test b".toList]

theorem run_alike_moreLines :
    let still : Host (StateM Unit) := oneFile.host (pure 0)
    let ticking : Host (StateM Nat) := oneFile.host (modifyGet fun n => (n.toFloat, n + 1))
    let o := ((runLines (execute still 1) true .new fewLines).run ()).1
    let o' := ((runLines (execute ticking 1) true State.new.cacheOff moreLines).run 0).1
    moreLines.filter essential = fewLines.filter essential ∧ still.IsIn oneFile ∧
      ticking.IsIn oneFile ∧ o.state.pattern = some ['b'] ∧ o'.state.pattern = some ['b'] ∧
      List.Forall₂ Alike ((execute still 1 o.state "match a b".toList).run ()).1.lines
        ((execute ticking 1 o'.state "match a b".toList).run 7).1.lines := by
  intro still ticking o o'
  have hsame : moreLines.filter essential = fewLines.filter essential := by decide +kernel
  have hstill : still.IsIn oneFile := oneFile.isIn_host _
  have hticking : ticking.IsIn oneFile := oneFile.isIn_host _
  obtain ⟨-, ⟨huses, huses'⟩, -, hnext⟩ := run_alike oneFile 1 true fewLines moreLines hsame .new
    State.new.cacheOff (.inl rfl) (.inr rfl) still ticking hstill hticking () 0
  have hpast : (Surroundings.runLines (oneFile.execute 1) true [] fewLines).past.head? =
      some ['b'] := by
    decide +kernel
  rw [hpast] at huses huses'
  exact ⟨hsame, hstill, hticking, huses.1, huses'.1,
    (hnext _ (.matchStrings false ['a'] [['b']]) (by decide +kernel) nofun (fun _ => nofun) () 7).2⟩

end RegexAutomata.Shell
