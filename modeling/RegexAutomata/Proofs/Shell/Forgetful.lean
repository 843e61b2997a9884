/-
A shell that forgets its automata.

This shell keeps only the patterns that it has compiled.  Whatever it is asked, it works out with a
new generator, and it does not look at the clock: what it says leaves open how long something took
and how full the caches are (`Said`).  The shell with all its memories says the same (`Fits`), since
what a consistent generator makes of a pattern does not depend on what it has made before.

* `answer`, `Surroundings.perform`, `execute`, `runLines` — this shell;
* `Shows` — lines that are printed for what is said;
* `perform_fits`, `execute_fits`, `runLines_fits` — commands, lines, and any number of lines.
-/
import RegexAutomata.Proofs.Session.PhraseSearch
import RegexAutomata.Proofs.Shell.Lines

namespace RegexAutomata

namespace Shell

/-! ### What is said -/

/-- Something that is said. -/
inductive Said where
  | line (l : Line)
  | verdict (string : Text) (accepted : Bool)
  | compiled (canonical : Text)
  /-- What the caches are like. -/
  | cacheReport
deriving DecidableEq

/-- The lines that are printed for it. -/
inductive Said.Shown : Said → List Line → Prop where
  | line (l : Line) : Shown (.line l) [l]
  | verdict (string : Text) (accepted : Bool) (elapsed : Float) :
    Shown (.verdict string accepted) [verdictLine string accepted elapsed]
  | compiled (canonical : Text) (elapsed : Float) :
    Shown (.compiled canonical) [compiledLine canonical elapsed]
  | cacheReport (s : State) : Shown .cacheReport s.cacheStatus

/-- The lines are printed for what is said, in this order. -/
inductive Shows : List Said → List Line → Prop where
  | nil : Shows [] []
  | cons {x : Said} {said : List Said} {lines more : List Line} (hx : x.Shown lines)
    (hsaid : Shows said more) : Shows (x :: said) (lines ++ more)

section

variable {said said' : List Said} {lines lines' : List Line}

theorem Said.Shown.shows {x : Said} (hx : x.Shown lines) : Shows [x] lines := by
  have h := Shows.cons hx .nil
  rwa [List.append_nil] at h

theorem Shows.append (h : Shows said lines) (h' : Shows said' lines') :
    Shows (said ++ said') (lines ++ lines') := by
  induction h with
  | nil => exact h'
  | cons hx _ ih =>
    rw [List.append_assoc]
    exact .cons hx ih

theorem shows_lines (lines : List Line) : Shows (lines.map .line) lines := by
  induction lines with
  | nil => exact .nil
  | cons l lines ih => exact .cons (.line l) ih

end

/-! ### The shell -/

/-- What there is to be made of a pattern: an error, or a verdict on each input. -/
def answer (p : Text) : Except BuildError (List Symbol → Bool) :=
  match Generator.standard.generate p with
  | (_, .error e) => .error e
  | (g, .ok h) => .ok fun w => (g.accepts h w).2

/-- What is said of a pattern that there is no automaton for. -/
def saidError (e : BuildError) : List Said := (buildErrorLines e).map .line

/-- What is said of a pattern that has been compiled. -/
def saidCompiled (verbose : Bool) (p : Text) : List Said :=
  match verbose, canonical .standard p with
  | true, .ok c => [.compiled c]
  | _, _ => []

/-- What is said of strings, or of the empty string if there are none. -/
def saidVerdicts (accepts : List Symbol → Bool) (strings : List Text) : List Said :=
  (if strings.isEmpty then [[]] else strings).map fun w => .verdict w (accepts (Text.symbols w))

/-- The canonical form of a pattern. -/
def saidCanonical (p : Text) : List Said :=
  match canonical .standard p with
  | .ok c => [.line (.out (String.ofList c))]
  | .error e => [.line (errorLine e)]

/-- What a line leads to: the patterns that have been compiled, the last one first, what is said,
and how the line ends. -/
structure Turn where
  past : List Text
  said : List Said
  status : Status
deriving DecidableEq

/-- What lines lead to: each line that has been run has its turn. -/
structure Course where
  past : List Text
  turns : List (Text × Turn)
  status : Status
deriving DecidableEq

/-- Nothing has been run yet, or nothing is run any more. -/
def Course.still (past : List Text) (status : Status) : Course := ⟨past, [], status⟩

/-- One more turn before the others. -/
def Course.cons (line : Text) (t : Turn) (c : Course) : Course :=
  { c with turns := (line, t) :: c.turns }

/-- What is said in the course of the lines. -/
def Course.said (c : Course) : List Said := c.turns.flatMap fun t => t.2.said

/-- Files, and the directory that is meant by a tilde. -/
structure Surroundings where
  home : String
  read : String → Except FileError Text

namespace Surroundings

variable (w : Surroundings)

/-- Searches files in turn. -/
def searchFiles (literal : Bool) (phrase : Text) : List String → List Said × Status
  | [] => ([], .succeeded)
  | path :: rest =>
    match answer (wrapPhrase (if literal then escape .standard phrase else phrase)) with
    | .error e => (saidError e, .succeeded)
    | .ok accepts =>
      match w.read (expandHome w.home path) with
      | .error e => ([.line (.out (e.text (expandHome w.home path)))], .failed)
      | .ok content =>
        let found := (numbered 1 (textLines content)).filter fun m => accepts (Text.symbols m.2)
        let later := searchFiles literal phrase rest
        ((matchLines path found).map .line ++ later.1, later.2)

/-- Runs lines in turn until one of them ends the program, or fails where the first failure ends
the run. -/
def runLines (run : List Text → Text → Turn) (exitFirst : Bool) (past : List Text) :
    List Text → Course
  | [] => .still past .succeeded
  | line :: rest =>
    let first := run past line
    let later := runLines run exitFirst first.past rest
    .cons line first
      (match first.status with
      | .exit code => .still first.past (.exit code)
      | .failed => if exitFirst then .still first.past .succeeded else later
      | .succeeded => later)

/-- Runs the lines of files in turn. -/
def sourceFiles (run : List Text → Text → Turn) (past : List Text) : List String → Turn
  | [] => ⟨past, [], .succeeded⟩
  | path :: rest =>
    match w.read (expandHome w.home path) with
    | .error e => ⟨past, [.line (.out (e.text (expandHome w.home path)))], .failed⟩
    | .ok content =>
      let first := runLines run true past (textLines content)
      let later := sourceFiles run first.past rest
      match first.status with
      | .exit code => ⟨first.past, first.said, .exit code⟩
      | _ => { later with said := first.said ++ later.said }

/-- Carries out a command; `run` runs a line of a file. -/
def perform (run : List Text → Text → Turn) (past : List Text) : Command → Turn
  | .compile verbose p =>
    match answer p with
    | .error e => ⟨past, saidError e, .succeeded⟩
    | .ok _ => ⟨p :: past, saidCompiled verbose p, .succeeded⟩
  | .test strings =>
    match past with
    | [] => ⟨past, [.line (.err "no pattern compiled yet")], .failed⟩
    | p :: _ =>
      match answer p with
      | .error e => ⟨past, saidError e, .succeeded⟩
      | .ok accepts => ⟨past, saidVerdicts accepts strings, .succeeded⟩
  | .matchStrings verbose p strings =>
    match answer p with
    | .error e => ⟨past, saidError e, .succeeded⟩
    | .ok accepts => ⟨past, saidCompiled verbose p ++ saidVerdicts accepts strings, .succeeded⟩
  | .elongate p => ⟨past, saidCanonical p, .succeeded⟩
  | .search literal phrase files =>
    ⟨past, (w.searchFiles literal phrase files).1, (w.searchFiles literal phrase files).2⟩
  | .cache none => ⟨past, [.cacheReport], .succeeded⟩
  | .cache (some _) => ⟨past, [], .succeeded⟩
  | .quit => ⟨past, [], .exit 0⟩
  | .source files => w.sourceFiles run past files
  | .help command => ⟨past, ((helpLines command).map .out).map .line, .succeeded⟩

/-- Runs a line.  Files can run files up to a given depth. -/
def execute : Nat → List Text → Text → Turn
  | depth, past, line =>
    match readLine line with
    | .error message => ⟨past, [.line (.err message)], .failed⟩
    | .ok none => ⟨past, [], .succeeded⟩
    | .ok (some command) =>
      let run := match depth with
        | 0 => fun past _ => ⟨past, [.line (.err "files are nested too deep")], .exit 1⟩
        | depth + 1 => fun past line => execute depth past line
      w.perform run past command

end Surroundings

end Shell

/-! ### Verdicts -/

namespace Generator

/-- The automaton of a handle gives these verdicts. -/
structure Decides (g : Generator) (h : Handle) (accepts : List Symbol → Bool) : Prop where
  valid : h < g.acceptors.size
  verdict : ∀ w, (g.accepts h w).2 = accepts w

theorem Decides.continues {g g' : Generator} {h : Handle} {accepts : List Symbol → Bool}
    (hd : g.Decides h accepts) (hg : g.Consistent) (hc : g.Continues g') :
    g'.Decides h accepts where
  valid := hd.valid.trans_le hc.size
  verdict w := (hc.accepts_eq hg hd.valid w).trans (hd.verdict w)

end Generator

namespace Shell

theorem answer_eq_ok {p : Text} {accepts : List Symbol → Bool} :
    answer p = .ok accepts ↔ ∃ g h, Generator.standard.generate p = (g, .ok h) ∧
      ∀ w, (g.accepts h w).2 = accepts w := by
  unfold answer
  constructor
  · intro hanswer
    split at hanswer
    · cases hanswer
    · rename_i g h hgenerate
      cases hanswer
      exact ⟨g, h, hgenerate, fun _ => rfl⟩
  · rintro ⟨g, h, hgenerate, haccepts⟩
    rw [hgenerate]
    exact congrArg _ (funext haccepts)

theorem answer_eq_error {p : Text} {e : BuildError}
    (h : (Generator.standard.generate p).2 = .error e) : answer p = .error e := by
  unfold answer
  split
  · rename_i heq
    rw [heq] at h
    cases h
    rfl
  · rename_i heq
    rw [heq] at h
    cases h

/-- A consistent generator makes of a pattern what a new one does. -/
theorem generate_answer {g : Generator} (hg : g.Consistent) (ha : g.alphabet = .standard)
    (p : Text) :
    g.Continues (g.generate p).1 ∧
      ((∃ e, answer p = .error e ∧ (g.generate p).2 = .error e) ∨
        ∃ accepts h, answer p = .ok accepts ∧ (g.generate p).2 = .ok h ∧
          (g.generate p).1.Decides h accepts) := by
  -- the new generator is one of those that have the same answer
  obtain ⟨result, hresult⟩ := Generator.exists_answer .standard p
  obtain ⟨hcontinues, hgives⟩ := hresult g hg ha
  obtain ⟨-, hnew⟩ := hresult .standard (Generator.consistent_new _ _ _) rfl
  refine ⟨hcontinues, ?_⟩
  cases result with
  | error e => exact .inl ⟨e, answer_eq_error hnew, hgives⟩
  | ok L =>
    obtain ⟨h, hok, hr⟩ := hgives
    obtain ⟨h₀, hok₀, hr₀⟩ := hnew
    refine .inr ⟨_, h, answer_eq_ok.2 ⟨_, h₀, Prod.ext rfl hok₀, fun _ => rfl⟩, hok, hr.valid,
      fun w => ?_⟩
    rw [Bool.eq_iff_iff, hr.accepts_iff, hr₀.accepts_iff]

/-! ### The state of the shell -/

/-- The pattern in use and its automaton, which accepts what that of a new generator does. -/
def State.Uses (s : State) : Option Text → Prop
  | none => s.pattern = none ∧ s.automaton = none
  | some p => s.pattern = some p ∧ ∃ h, s.automaton = some h ∧
    ∃ g₀ h₀, Generator.standard.generate p = (g₀, .ok h₀) ∧
      ∀ w, (s.generator.accepts h w).2 = (g₀.accepts h₀ w).2

/-- The shell stands where compiling these patterns, the last one first, can have led to. -/
structure Stands (past : List Text) (s : State) : Prop where
  generator : s.generator.Consistent
  alphabet : s.generator.alphabet = .standard
  valid : ∀ h, s.automaton = some h → h < s.generator.acceptors.size
  uses : s.Uses past.head?

variable {past : List Text} {s : State} {p : Text}

theorem stands_new : Stands [] .new where
  generator := Generator.consistent_new _ _ _
  alphabet := rfl
  valid := nofun
  uses := ⟨rfl, rfl⟩

theorem Stands.goesOn {g : Generator} (hs : Stands past s) (hg : s.generator.Continues g) :
    Stands past { s with generator := g } where
  generator := hg.consistent
  alphabet := hg.alphabet.trans hs.alphabet
  valid h hh := (hs.valid h hh).trans_le hg.size
  uses := by
    have huses := hs.uses
    cases hhead : past.head? with
    | none =>
      rw [hhead] at huses
      exact huses
    | some p =>
      rw [hhead] at huses
      obtain ⟨hpattern, h, hh, g₀, h₀, hgenerate, haccepts⟩ := huses
      refine ⟨hpattern, h, hh, g₀, h₀, hgenerate, fun w => ?_⟩
      exact (hg.accepts_eq hs.generator (hs.valid h hh) w).trans (haccepts w)

/-- The automaton in use belongs to the last pattern. -/
theorem Stands.decides (hs : Stands (p :: past) s) :
    ∃ accepts h, answer p = .ok accepts ∧ s.automaton = some h ∧
      s.generator.Decides h accepts := by
  obtain ⟨-, h, hh, g₀, h₀, hgenerate, haccepts⟩ := hs.uses
  exact ⟨_, h, answer_eq_ok.2 ⟨g₀, h₀, hgenerate, fun _ => rfl⟩, hh, hs.valid h hh, haccepts⟩

theorem Stands.compiled {g : Generator} {h : Handle} {accepts : List Symbol → Bool}
    (hs : Stands past { s with generator := g }) (hp : answer p = .ok accepts)
    (hd : g.Decides h accepts) :
    Stands (p :: past) { s with generator := g, pattern := some p, automaton := some h } where
  generator := hs.generator
  alphabet := hs.alphabet
  valid i hi := by
    cases hi
    exact hd.valid
  uses := by
    obtain ⟨g₀, h₀, hgenerate, haccepts⟩ := answer_eq_ok.1 hp
    exact ⟨rfl, h, rfl, g₀, h₀, hgenerate, fun w => (hd.verdict w).trans (haccepts w).symm⟩

/-- The command for the caches changes nothing but the generator. -/
theorem cache_state (s : State) (action : Option CacheAction) :
    (s.cache action).1 = { s with generator := (s.cache action).1.generator } := by
  rcases action with _ | _ | _ | _
  · rfl
  · show s.cacheOn = { s with generator := s.cacheOn.generator }
    unfold State.cacheOn
    split <;> rfl
  · show s.cacheOff = { s with generator := s.cacheOff.generator }
    unfold State.cacheOff
    split <;> rfl
  · show s.cacheClear = { s with generator := s.cacheClear.generator }
    unfold State.cacheClear
    split <;> rfl

theorem Stands.cache (hs : Stands past s) (action : Option CacheAction) :
    Stands past (s.cache action).1 := by
  rw [cache_state]
  exact hs.goesOn (cache_continues hs.generator hs.valid action)

/-- The outcome of a line is what the turn says. -/
structure Fits (t : Turn) (o : Outcome) : Prop where
  stands : Stands t.past o.state
  lines : Shows t.said o.lines
  status : o.status = t.status

/-! ### Commands -/

/-- The home directory and the files are these; nothing is known of the clock. -/
structure Host.IsIn {σ : Type} (host : Host (StateM σ)) (w : Surroundings) : Prop where
  home : host.home = w.home
  read : ∀ path, host.read path = pure (w.read path)

theorem Host.IsIn.yields_read {σ : Type} {host : Host (StateM σ)} {w : Surroundings}
    (hhost : host.IsIn w) (path : String) : Yields (· = w.read path) (host.read path) := by
  rw [hhost.read]
  exact yields_pure rfl

section

variable {σ : Type} (host : Host (StateM σ)) {w : Surroundings}

/-- Either the error is reported, or there is an automaton, which is reported on demand. -/
theorem compile_yields (hs : Stands past s) (verbose : Bool) (p : Text) :
    Yields (fun r => Stands past r.1 ∧ (∃ g, r.1 = { s with generator := g }) ∧
        ((∃ e, answer p = .error e ∧ r.2 = (none, buildErrorLines e)) ∨
          ∃ accepts h, answer p = .ok accepts ∧ r.1.generator.Decides h accepts ∧
            r.2.1 = some h ∧ Shows (saidCompiled verbose p) r.2.2))
      (compile host s verbose p) := by
  obtain ⟨hcontinues, hcases⟩ := generate_answer hs.generator hs.alphabet p
  have hstands := hs.goesOn hcontinues
  unfold compile
  rcases hg : s.generator.generate p with ⟨g, r⟩
  rw [hg] at hcontinues hcases hstands
  refine yields_bind (yields_true _) fun before _ => ?_
  refine yields_bind (yields_true _) fun after _ => ?_
  rcases hcases with ⟨e, he, ⟨⟩⟩ | ⟨accepts, h, hp, ⟨⟩, hd⟩
  · exact yields_pure ⟨hstands, ⟨g, rfl⟩, .inl ⟨e, he, rfl⟩⟩
  · -- the report looks the canonical form up again, which lets the generator go on
    obtain ⟨hmore, helongate⟩ := hstands.generator.elongate p
    refine yields_pure ⟨hstands.goesOn hmore, ⟨_, rfl⟩, .inr ⟨accepts, h, hp, ?_, rfl, ?_⟩⟩
    · exact hd.continues hstands.generator hmore
    · show Shows _ (match verbose, (g.elongate p).2 with
        | true, .ok c => [compiledLine c (after - before)]
        | _, _ => [])
      rw [helongate, hstands.alphabet]
      unfold saidCompiled
      generalize canonical .standard p = c
      rcases verbose with _ | _
      · exact .nil
      · rcases c with e | c
        · exact .nil
        · exact Said.Shown.shows (.compiled c _)

theorem tryEach_yields {g : Generator} {h : Handle} {accepts : List Symbol → Bool}
    (hg : g.Consistent) (hd : g.Decides h accepts) (strings : List Text) :
    Yields (fun r => g.Continues r.1 ∧
        Shows (strings.map fun w => .verdict w (accepts (Text.symbols w))) r.2)
      (tryEach host h g strings) := by
  induction strings generalizing g with
  | nil => exact yields_pure ⟨hg.refl, .nil⟩
  | cons string rest ih =>
    have hread := (hg.keeps_accepts hd.valid (Text.symbols string)).continues
    refine yields_bind (yields_true _) fun before _ => ?_
    refine yields_bind (yields_true _) fun after _ => ?_
    refine yields_bind (ih hread.consistent (hd.continues hg hread)) fun r hr => ?_
    have hshown : (Said.verdict string (accepts (Text.symbols string))).Shown
        [verdictLine string (g.accepts h (Text.symbols string)).2 (after - before)] := by
      rw [hd.verdict]
      exact .verdict string _ _
    exact yields_pure ⟨hread.trans hr.1, .cons hshown hr.2⟩

theorem test_yields {h : Handle} {accepts : List Symbol → Bool} (hs : Stands past s)
    (hd : s.generator.Decides h accepts) (strings : List Text) :
    Yields (fun r => Stands past r.1 ∧ Shows (saidVerdicts accepts strings) r.2)
      (test host s h strings) :=
  yields_bind (tryEach_yields host hs.generator hd _) fun _ hr =>
    yields_pure ⟨hs.goesOn hr.1, hr.2⟩

theorem searchFiles_fits (hhost : host.IsIn w) (hs : Stands past s) (literal : Bool)
    (phrase : Text) (paths : List String) :
    Yields (Fits ⟨past, (w.searchFiles literal phrase paths).1,
        (w.searchFiles literal phrase paths).2⟩) (searchFiles host literal phrase s paths) := by
  induction paths generalizing s with
  | nil => exact yields_pure ⟨hs, .nil, rfl⟩
  | cons path rest ih =>
    set p := wrapPhrase (if literal then escape .standard phrase else phrase) with hp
    have hphrase : s.generator.phrase phrase literal = s.generator.generate p := by
      rw [Generator.phrase, hs.alphabet]
    obtain ⟨hcontinues, hcases⟩ := generate_answer hs.generator hs.alphabet p
    unfold searchFiles Surroundings.searchFiles
    rw [hphrase, ← hp]
    rcases hg : s.generator.generate p with ⟨g, r⟩
    rw [hg] at hcontinues hcases
    rcases hcases with ⟨e, he, ⟨⟩⟩ | ⟨accepts, h, haccepts, ⟨⟩, hd⟩
    · rw [he]
      exact yields_pure ⟨hs.goesOn hcontinues, shows_lines _, rfl⟩
    · rw [haccepts, hhost.home]
      refine yields_bind (hhost.yields_read _) fun content hcontent => ?_
      rw [← hcontent]
      cases content with
      | error e =>
        exact yields_pure ⟨hs.goesOn hcontinues, shows_lines [_], rfl⟩
      | ok content =>
        have hsearch : g.Continues (g.searchLines h (textLines content)).1 :=
          (hcontinues.consistent.keeps_searchFrom hd.valid 1 _).continues
        have hstands := (hs.goesOn hcontinues).goesOn hsearch
        have hfound := hcontinues.consistent.searchFrom_eq hd.valid 1 (textLines content)
        simp only [hd.verdict] at hfound
        refine yields_bind (ih hstands) fun later hlater => ?_
        refine yields_pure ⟨hlater.stands, ?_, hlater.status⟩
        show Shows _
          (matchLines path (Generator.searchFrom h 1 g (textLines content)).2 ++ later.lines)
        rw [hfound]
        exact (shows_lines _).append hlater.lines

/-! ### Lines -/

/-- What the lines lead to, as a single turn. -/
def Course.turn (c : Course) : Turn := ⟨c.past, c.said, c.status⟩

/-- The second way to run a line does what the first one says. -/
def Follows (run : List Text → Text → Turn) (run' : State → Text → StateM σ Outcome) : Prop :=
  ∀ past s line, Stands past s → Yields (Fits (run past line)) (run' s line)

variable {run : List Text → Text → Turn} {run' : State → Text → StateM σ Outcome}

theorem runLines_fits (hrun : Follows run run') (hs : Stands past s) (exitFirst : Bool)
    (lines : List Text) :
    Yields (Fits (Surroundings.runLines run exitFirst past lines).turn)
      (runLines run' exitFirst s lines) := by
  induction lines generalizing past s with
  | nil => exact yields_pure ⟨hs, .nil, rfl⟩
  | cons line rest ih =>
    have hturn := hrun past s line hs
    unfold runLines Surroundings.runLines
    generalize run past line = turn at hturn ⊢
    obtain ⟨past', said, status⟩ := turn
    refine yields_bind hturn fun first hfirst => ?_
    have hone : Shows (said ++ []) first.lines := by
      rw [List.append_nil]
      exact hfirst.lines
    -- what is left to do if the first line does not end the run
    have hlater : Yields (Fits ⟨(Surroundings.runLines run exitFirst past' rest).past,
          said ++ (Surroundings.runLines run exitFirst past' rest).said,
          (Surroundings.runLines run exitFirst past' rest).status⟩)
        (do
          let later ← runLines run' exitFirst first.state rest
          pure { later with lines := first.lines ++ later.lines }) :=
      yields_bind (ih hfirst.stands) fun later hlater =>
        yields_pure ⟨hlater.stands, hfirst.lines.append hlater.lines, hlater.status⟩
    rw [hfirst.status]
    cases status with
    | exit code => exact yields_pure ⟨hfirst.stands, hone, hfirst.status⟩
    | failed =>
      cases exitFirst
      · exact hlater
      · exact yields_pure ⟨hfirst.stands, hone, rfl⟩
    | succeeded => exact hlater

theorem sourceFiles_fits (hhost : host.IsIn w) (hrun : Follows run run') (hs : Stands past s)
    (paths : List String) :
    Yields (Fits (w.sourceFiles run past paths)) (sourceFiles host run' s paths) := by
  induction paths generalizing past s with
  | nil => exact yields_pure ⟨hs, .nil, rfl⟩
  | cons path rest ih =>
    unfold sourceFiles Surroundings.sourceFiles
    rw [hhost.home]
    refine yields_bind (hhost.yields_read _) fun content hcontent => ?_
    rw [← hcontent]
    cases content with
    | error e => exact yields_pure ⟨hs, shows_lines [_], rfl⟩
    | ok content =>
      have hcourse := runLines_fits hrun hs true (textLines content)
      dsimp only
      generalize Surroundings.runLines run true past (textLines content) = course at hcourse ⊢
      obtain ⟨past', turns, status⟩ := course
      refine yields_bind hcourse fun first hfirst => ?_
      have hlater := yields_bind (ih hfirst.stands) fun later hlater =>
        yields_pure (P := Fits { w.sourceFiles run past' rest with
            said := Course.said ⟨past', turns, status⟩ ++ (w.sourceFiles run past' rest).said })
          (a := { later with lines := first.lines ++ later.lines }) (σ := σ)
          ⟨hlater.stands, hfirst.lines.append hlater.lines, hlater.status⟩
      rw [hfirst.status]
      cases status with
      | exit code => exact yields_pure ⟨hfirst.stands, hfirst.lines, hfirst.status⟩
      | failed => exact hlater
      | succeeded => exact hlater

theorem elongate_fits (hs : Stands past s) (p : Text) :
    Fits ⟨past, saidCanonical p, .succeeded⟩ ⟨(s.elongate p).1, (s.elongate p).2, .succeeded⟩ := by
  obtain ⟨hcontinues, hresult⟩ := hs.generator.elongate p
  rw [hs.alphabet] at hresult
  unfold State.elongate saidCanonical
  rcases hg : s.generator.elongate p with ⟨g, r⟩
  rw [hg] at hcontinues hresult
  obtain rfl : r = canonical .standard p := hresult
  cases canonical .standard p with
  | error e => exact ⟨hs.goesOn hcontinues, shows_lines [_], rfl⟩
  | ok c => exact ⟨hs.goesOn hcontinues, shows_lines [_], rfl⟩

/-- Whether there is an automaton is the same in both shells. -/
theorem compile_fits (hs : Stands past s) (verbose : Bool) (p : Text) :
    Yields (Fits (w.perform run past (.compile verbose p)))
      (perform host run' s (.compile verbose p)) := by
  refine yields_bind (compile_yields host hs verbose p) fun r hr => ?_
  obtain ⟨s', h, lines⟩ := r
  obtain ⟨hs', ⟨g, rfl⟩, ⟨e, he, ⟨⟩⟩ | ⟨accepts, h, hp, hd, ⟨⟩, hlines⟩⟩ := hr
  · simp only [Surroundings.perform, he]
    exact yields_pure ⟨hs', shows_lines _, rfl⟩
  · simp only [Surroundings.perform, hp]
    exact yields_pure ⟨hs'.compiled hp hd, hlines, rfl⟩

theorem matchStrings_fits (hs : Stands past s) (verbose : Bool) (p : Text)
    (strings : List Text) :
    Yields (Fits (w.perform run past (.matchStrings verbose p strings)))
      (perform host run' s (.matchStrings verbose p strings)) := by
  refine yields_bind (compile_yields host hs verbose p) fun r hr => ?_
  obtain ⟨s', h, lines⟩ := r
  obtain ⟨hs', -, ⟨e, he, ⟨⟩⟩ | ⟨accepts, h, hp, hd, ⟨⟩, hlines⟩⟩ := hr
  · simp only [Surroundings.perform, he]
    exact yields_pure ⟨hs', shows_lines _, rfl⟩
  · simp only [Surroundings.perform, hp]
    refine yields_bind (test_yields host hs' hd strings) fun r hr => ?_
    exact yields_pure ⟨hr.1, hlines.append hr.2, rfl⟩

theorem test_fits (hs : Stands past s) (strings : List Text) :
    Yields (Fits (w.perform run past (.test strings))) (perform host run' s (.test strings)) := by
  cases past with
  | nil =>
    obtain ⟨-, hnone⟩ := hs.uses
    simp only [perform, hnone]
    exact yields_pure ⟨hs, shows_lines [_], rfl⟩
  | cons p past =>
    obtain ⟨accepts, h, hp, hh, hd⟩ := hs.decides
    simp only [perform, hh, Surroundings.perform, hp]
    exact yields_bind (test_yields host hs hd strings) fun r hr => yields_pure ⟨hr.1, hr.2, rfl⟩

theorem cache_fits (hs : Stands past s) (action : Option CacheAction) :
    Fits (w.perform run past (.cache action))
      ⟨(s.cache action).1, (s.cache action).2, .succeeded⟩ := by
  cases action with
  | none => exact ⟨hs, Said.Shown.shows (.cacheReport s), rfl⟩
  | some action =>
    have hquiet : (s.cache (some action)).2 = [] := by cases action <;> rfl
    refine ⟨hs.cache (some action), ?_, rfl⟩
    rw [hquiet]
    exact .nil

theorem perform_fits (hhost : host.IsIn w) (hrun : Follows run run') (hs : Stands past s)
    (c : Command) : Yields (Fits (w.perform run past c)) (perform host run' s c) := by
  cases c with
  | compile verbose p => exact compile_fits host hs verbose p
  | test strings => exact test_fits host hs strings
  | matchStrings verbose p strings => exact matchStrings_fits host hs verbose p strings
  | elongate p => exact yields_pure (elongate_fits hs p)
  | search literal phrase files => exact searchFiles_fits host hhost hs literal phrase files
  | cache action => exact yields_pure (cache_fits hs action)
  | quit => exact yields_pure ⟨hs, .nil, rfl⟩
  | source files => exact sourceFiles_fits host hhost hrun hs files
  | help command => exact yields_pure ⟨hs, shows_lines _, rfl⟩

theorem line_fits (hhost : host.IsIn w) (hrun : Follows run run') (hs : Stands past s)
    (line : Text) :
    Yields
      (Fits (match readLine line with
        | .error message => ⟨past, [.line (.err message)], .failed⟩
        | .ok none => ⟨past, [], .succeeded⟩
        | .ok (some c) => w.perform run past c))
      (match readLine line with
        | .error message => pure ⟨s, [.err message], .failed⟩
        | .ok none => pure ⟨s, [], .succeeded⟩
        | .ok (some c) => do
          let o ← perform host run' s c
          let s := { o.state with generator := o.state.generator.forgetEvents }
          pure { o with state := s }) := by
  rcases readLine line with message | _ | c
  · exact yields_pure ⟨hs, shows_lines [_], rfl⟩
  · exact yields_pure ⟨hs, .nil, rfl⟩
  · refine yields_bind (perform_fits host hhost hrun hs c) fun o ho => ?_
    exact yields_pure ⟨ho.stands.goesOn ho.stands.generator.forgetEvents, ho.lines, ho.status⟩

/-- Files run files, so the proof is by induction on how deep they still can. -/
theorem execute_fits (hhost : host.IsIn w) (depth : Nat) :
    Follows (w.execute depth) (execute host depth) := by
  induction depth with
  | zero =>
    intro past s line hs
    unfold execute Surroundings.execute
    exact line_fits host hhost (fun _ _ _ hs => yields_pure ⟨hs, shows_lines [_], rfl⟩) hs line
  | succ depth ih =>
    intro past s line hs
    unfold execute Surroundings.execute
    exact line_fits host hhost ih hs line

end

end Shell

end RegexAutomata
