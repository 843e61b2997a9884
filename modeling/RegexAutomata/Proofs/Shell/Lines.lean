/-
What a line does to the shell.

Most commands leave the pattern in use and all switches alone.  Compiling may put another automaton
into use, and the command for the caches turns the switches (`State.aim`).  Everything else that a
line does only lets the generator go on (`GoesOn`).

* `State.after` — the shell after a line, in surroundings of which only the state is known;
* `perform_goesOn`, `after_goesOn` — a command, and a line, that does not run files.
-/
import RegexAutomata.Proofs.Compile.Notes
import RegexAutomata.Shell.Run

namespace RegexAutomata.Shell

/-! ### Surroundings -/

section

variable {σ α β : Type} {P : α → Prop} {Q : β → Prop}

/-- What is computed has a property in all surroundings. -/
def Yields (P : α → Prop) (x : StateM σ α) : Prop := ∀ world, P (x.run world).1

theorem yields_pure {a : α} (ha : P a) : Yields P (pure a : StateM σ α) := fun _ => ha

theorem yields_bind {x : StateM σ α} {f : α → StateM σ β} (hx : Yields P x)
    (hf : ∀ a, P a → Yields Q (f a)) : Yields Q (x >>= f) :=
  fun world => hf _ (hx world) (x.run world).2

/-- Nothing is known of what is computed. -/
theorem yields_true (x : StateM σ α) : Yields (fun _ => True) x := fun _ => trivial

end

/-! ### Commands -/

/-- The generator has gone on, and the automaton in use is the same. -/
structure GoesOn (s s' : State) : Prop where
  keeps : s.generator.Keeps s'.generator
  automaton : s'.automaton = s.automaton

theorem GoesOn.trans {s s' s'' : State} (h₁ : GoesOn s s') (h₂ : GoesOn s' s'') : GoesOn s s'' :=
  ⟨h₁.keeps.trans h₂.keeps, h₂.automaton.trans h₁.automaton⟩

/-- The shell after the essential part of a command. -/
def State.aim (s : State) : Command → State
  | .compile _ pattern =>
    match s.generator.generate pattern with
    | (g, .ok h) => ⟨g, some pattern, some h⟩
    | (g, .error _) => { s with generator := g }
  | .cache action => (s.cache action).1
  | _ => s

theorem aim_compile {s : State} {g : Generator} {h : Handle} {pattern : Text}
    (hg : s.generator.generate pattern = (g, .ok h)) (verbose : Bool) :
    s.aim (.compile verbose pattern) = ⟨g, some pattern, some h⟩ := by
  simp only [State.aim, hg]

theorem aim_compile_error {s : State} {g : Generator} {e : BuildError} {pattern : Text}
    (hg : s.generator.generate pattern = (g, .error e)) (verbose : Bool) :
    s.aim (.compile verbose pattern) = { s with generator := g } := by
  simp only [State.aim, hg]

variable {s : State} {h : Handle}

theorem elongate_goesOn (hs : s.generator.Consistent) (pattern : Text) :
    GoesOn s (s.elongate pattern).1 := by
  have helongate := hs.keeps_elongate pattern
  unfold State.elongate
  rcases hg : s.generator.elongate pattern with ⟨g, e | c⟩
  · rw [hg] at helongate
    exact ⟨helongate, rfl⟩
  · rw [hg] at helongate
    exact ⟨helongate, rfl⟩

/-- What is done with the caches changes no automaton. -/
theorem cache_continues (hs : s.generator.Consistent)
    (hvalid : ∀ h, s.automaton = some h → h < s.generator.acceptors.size)
    (action : Option CacheAction) : s.generator.Continues (s.cache action).1.generator := by
  rcases action with _ | _ | _ | _
  · exact hs.refl
  · have hswitch := hs.switch true true true
    show s.generator.Continues s.cacheOn.generator
    unfold State.cacheOn
    rcases ha : s.automaton with _ | h
    · exact hswitch
    · have hh := hvalid h ha
      simp only
      split
      · exact hswitch
      · exact hswitch.trans (hswitch.consistent.set hh ((hs.settled h hh).withCaching true) rfl)
  · have hswitch := hs.switch false false false
    show s.generator.Continues s.cacheOff.generator
    unfold State.cacheOff
    rcases ha : s.automaton with _ | h
    · exact hswitch
    · have hh := hvalid h ha
      exact hswitch.trans (hswitch.consistent.set hh ((hs.settled h hh).withCaching false) rfl)
  · have hforget := hs.forget (.inr rfl) (.inr rfl) (.inr rfl)
    show s.generator.Continues s.cacheClear.generator
    unfold State.cacheClear
    rcases ha : s.automaton with _ | h
    · exact hforget
    · have hh := hvalid h ha
      exact hforget.trans (hforget.consistent.set hh (hs.settled h hh).clearMemo rfl)

variable {σ : Type} (host : Host (StateM σ))

theorem compile_goesOn (hs : s.generator.Consistent) (verbose : Bool) (pattern : Text) :
    Yields (fun r => GoesOn { s with generator := (s.generator.generate pattern).1 } r.1 ∧
        r.2.1 = (s.generator.generate pattern).2.toOption)
      (compile host s verbose pattern) := by
  have hgenerated := (hs.generate pattern).continues.consistent
  unfold compile
  rcases hg : s.generator.generate pattern with ⟨g, e | h⟩
  · rw [hg] at hgenerated
    refine yields_bind (yields_true _) fun before _ => ?_
    exact yields_bind (yields_true _) fun after _ _ => ⟨⟨hgenerated.keeps_refl, rfl⟩, rfl⟩
  · rw [hg] at hgenerated
    refine yields_bind (yields_true _) fun before _ => ?_
    exact yields_bind (yields_true _) fun after _ _ =>
      ⟨⟨hgenerated.keeps_elongate pattern, rfl⟩, rfl⟩

theorem tryEach_keeps {g : Generator} (hg : g.Consistent) (hh : h < g.acceptors.size)
    (strings : List Text) : Yields (fun r => g.Keeps r.1) (tryEach host h g strings) := by
  induction strings generalizing g with
  | nil => exact yields_pure hg.keeps_refl
  | cons string rest ih =>
    have hread := hg.keeps_accepts hh (Text.symbols string)
    refine yields_bind (yields_true _) fun before _ => ?_
    refine yields_bind (yields_true _) fun after _ => ?_
    refine yields_bind (ih hread.continues.consistent (hh.trans_le hread.continues.size)) ?_
    exact fun r hr => yields_pure (hread.trans hr)

theorem test_goesOn (hs : s.generator.Consistent) (hh : h < s.generator.acceptors.size)
    (strings : List Text) : Yields (fun r => GoesOn s r.1) (test host s h strings) :=
  yields_bind (tryEach_keeps host hs hh _) fun _ hr => yields_pure ⟨hr, rfl⟩

theorem searchFiles_goesOn (hs : s.generator.Consistent) (literal : Bool) (phrase : Text)
    (paths : List String) :
    Yields (fun o => GoesOn s o.state) (searchFiles host literal phrase s paths) := by
  induction paths generalizing s with
  | nil => exact yields_pure ⟨hs.keeps_refl, rfl⟩
  | cons path rest ih =>
    have hphrase : s.generator.Keeps (s.generator.phrase phrase literal).1 :=
      (hs.generate_cases _).1
    have hprovides : s.generator.Provides (s.generator.phrase phrase literal) := hs.generate _
    unfold searchFiles
    rcases hg : s.generator.phrase phrase literal with ⟨g, e | h⟩
    · rw [hg] at hphrase
      exact fun _ => ⟨hphrase, rfl⟩
    · rw [hg] at hphrase hprovides
      refine yields_bind (yields_true _) fun content _ => ?_
      cases content with
      | error e => exact fun _ => ⟨hphrase, rfl⟩
      | ok content =>
        have hsearch : g.Keeps (g.searchLines h (textLines content)).1 :=
          hphrase.continues.consistent.keeps_searchFrom (hprovides.valid h rfl) 1 _
        refine yields_bind (ih hsearch.continues.consistent) fun later hlater => ?_
        exact yields_pure ⟨hphrase.trans (hsearch.trans hlater.keeps), hlater.automaton⟩

/-- A command that does not run files does the essential part, and otherwise lets the generator go
on. -/
theorem perform_goesOn (run : State → Text → StateM σ Outcome) (hs : s.generator.Consistent)
    (hvalid : ∀ h, s.automaton = some h → h < s.generator.acceptors.size) {c : Command}
    (hc : ∀ files, c ≠ .source files) :
    Yields (fun o => GoesOn (s.aim c) o.state) (perform host run s c) := by
  cases c with
  | compile verbose pattern =>
    refine yields_bind (compile_goesOn host hs verbose pattern) fun r hr => ?_
    obtain ⟨s', h, lines⟩ := r
    obtain ⟨hgoes, hresult⟩ := hr
    rcases hg : s.generator.generate pattern with ⟨g, e | h'⟩
    · rw [hg] at hgoes hresult
      cases hresult
      rw [aim_compile_error hg]
      exact yields_pure hgoes
    · rw [hg] at hgoes hresult
      cases hresult
      rw [aim_compile hg]
      exact yields_pure ⟨hgoes.keeps, rfl⟩
  | test strings =>
    unfold perform
    rcases ha : s.automaton with _ | h
    · exact yields_pure ⟨hs.keeps_refl, rfl⟩
    · exact yields_bind (test_goesOn host hs (hvalid h ha) strings) fun r hr => yields_pure hr
  | matchStrings verbose pattern strings =>
    have hgenerate : s.generator.Keeps (s.generator.generate pattern).1 :=
      (hs.generate_cases pattern).1
    have hprovides := hs.generate pattern
    refine yields_bind (compile_goesOn host hs verbose pattern) fun r hr => ?_
    obtain ⟨s', h, lines⟩ := r
    obtain ⟨hgoes, hresult⟩ := hr
    have hfirst : GoesOn s s' := ⟨hgenerate.trans hgoes.keeps, hgoes.automaton⟩
    rcases h with _ | h
    · exact yields_pure hfirst
    · have hh : h < s'.generator.acceptors.size := by
        refine (hprovides.valid h ?_).trans_le hgoes.keeps.continues.size
        cases hg : (s.generator.generate pattern).2 with
        | error e => cases hresult.trans (congrArg Except.toOption hg)
        | ok i => rw [Option.some.inj (hresult.trans (congrArg Except.toOption hg))]
      refine yields_bind (test_goesOn host hfirst.keeps.continues.consistent hh strings) ?_
      exact fun r hr => yields_pure (hfirst.trans hr)
  | elongate pattern =>
    exact yields_pure (elongate_goesOn hs pattern)
  | search literal phrase files => exact searchFiles_goesOn host hs literal phrase files
  | cache action =>
    exact yields_pure ⟨(cache_continues hs hvalid action).consistent.keeps_refl, rfl⟩
  | quit => exact yields_pure ⟨hs.keeps_refl, rfl⟩
  | source files => exact absurd rfl (hc files)
  | help command => exact yields_pure ⟨hs.keeps_refl, rfl⟩

/-! ### Lines -/

/-- The line does not run files. -/
def Plain (line : Text) : Prop := ∀ files, readLine line ≠ .ok (some (.source files))

/-- The shell after the essential part of a line. -/
def State.aimLine (s : State) (line : Text) : State :=
  match readLine line with
  | .ok (some c) => s.aim c
  | _ => s

theorem aimLine_of_command {line : Text} {c : Command} (hline : readLine line = .ok (some c)) :
    s.aimLine line = s.aim c := by
  simp only [State.aimLine, hline]

/-- The shell after a line. -/
def State.after (s : State) (host : Host (StateM σ)) (world : σ) (depth : Nat) (line : Text) :
    State :=
  ((execute host depth s line).run world).1.state

/-- A line that does not run files does the essential part, and otherwise lets the generator go
on. -/
theorem after_goesOn (hs : s.generator.Consistent)
    (hvalid : ∀ h, s.automaton = some h → h < s.generator.acceptors.size) {line : Text}
    (hline : Plain line) (world : σ) (depth : Nat) :
    GoesOn (s.aimLine line) (s.after host world depth line) := by
  suffices h : Yields (fun o => GoesOn (s.aimLine line) o.state) (execute host depth s line) from
    h world
  unfold execute
  rcases hread : readLine line with message | _ | c
  · have haim : s.aimLine line = s := by simp only [State.aimLine, hread]
    rw [haim]
    exact yields_pure ⟨hs.keeps_refl, rfl⟩
  · have haim : s.aimLine line = s := by simp only [State.aimLine, hread]
    rw [haim]
    exact yields_pure ⟨hs.keeps_refl, rfl⟩
  · rw [aimLine_of_command hread]
    have hc : ∀ files, c ≠ .source files := fun files hc => hline files (hc ▸ hread)
    refine yields_bind (perform_goesOn host _ hs hvalid hc) fun outcome houtcome => ?_
    have hforget := houtcome.keeps.continues.consistent.keeps_forgetEvents
    exact yields_pure ⟨houtcome.keeps.trans hforget, houtcome.automaton⟩

end RegexAutomata.Shell
