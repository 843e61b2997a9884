/-
The switch for the notes and the automaton in use.

Whether new automata keep notes is the generator's matter, whether the automaton in use does is its
own, and the command for the caches sets both.  They differ only after an automaton has come from
memory that was in use when the caches were switched off, and not when they were switched on again
(`StaleHit`).

* `Sound.aim`, `Sound.goesOn` — what holds in every state that lines lead to;
* `Sound.inSync_aim` — the two agree after a command, unless it is such a hit;
* `automaton_inSync` — they agree as long as there is no such hit, and differ after one.
-/
import Mathlib.Control.Monad.Basic
import RegexAutomata.Proofs.Shell.Lines

namespace RegexAutomata.Shell

variable {s s' : State}

/-- The automaton in use keeps notes just if new automata do, unless it is deterministic. -/
def InSync (s : State) : Prop :=
  ∀ h, s.automaton = some h → (s.generator.acceptor h).automaton.deterministic = false →
    (s.generator.acceptor h).caching = s.generator.transitionCaching

/-- The line compiles a pattern whose automaton is known and has been switched off. -/
def StaleHit (s : State) (line : Text) : Prop :=
  ∃ verbose pattern h, readLine line = .ok (some (.compile verbose pattern)) ∧
    s.generator.Knows pattern h ∧
    (s.generator.acceptor h).automaton.deterministic = false ∧
    (s.generator.acceptor h).caching = false

/-- The states to which lines lead that have a property, in any surroundings, from a start with or
without caches. -/
inductive Reachable (P : State → Text → Prop) : State → Prop where
  | start : Reachable P .new
  | startOff : Reachable P State.new.cacheOff
  | line {σ : Type} {s : State} {line : Text} (hs : Reachable P s) (hline : P s line)
      (host : Host (StateM σ)) (world : σ) (depth : Nat) :
      Reachable P (s.after host world depth line)

theorem Reachable.mono {P Q : State → Text → Prop} (hPQ : ∀ s line, P s line → Q s line)
    (hs : Reachable P s) : Reachable Q s := by
  induction hs with
  | start => exact .start
  | startOff => exact .startOff
  | line _ hline host world depth ih => exact .line ih (hPQ _ _ hline) host world depth

/-- The generator is consistent, the automaton in use is one of its automata, and the switches stand
together.  While they are off, the automaton in use keeps no notes. -/
structure Sound (s : State) : Prop where
  generator : s.generator.Consistent
  valid : ∀ h, s.automaton = some h → h < s.generator.acceptors.size
  together : s.generator.transitionCaching = s.generator.caching
  off : s.generator.transitionCaching = false → ∀ h, s.automaton = some h →
    (s.generator.acceptor h).caching = false

theorem sound_new : Sound .new where
  generator := Generator.consistent_new _ _ _
  valid := nofun
  together := rfl
  off _ := nofun

theorem Sound.goesOn (hs : Sound s) (h : GoesOn s s') : Sound s' where
  generator := h.keeps.continues.consistent
  valid i hi := (hs.valid i (h.automaton ▸ hi)).trans_le h.keeps.continues.size
  together := by
    rw [h.keeps.transitionCaching, h.keeps.caching]
    exact hs.together
  off hoff i hi := by
    rw [h.keeps.transitionCaching] at hoff
    rw [h.automaton] at hi
    rw [h.keeps.notes i (hs.valid i hi)]
    exact hs.off hoff i hi

/-- Whether the two agree does not change when the generator goes on. -/
theorem Sound.inSync_iff (hs : Sound s) (h : GoesOn s s') : InSync s' ↔ InSync s := by
  refine forall_congr' fun i => ?_
  rw [h.automaton]
  refine forall_congr' fun hi => ?_
  rw [h.keeps.continues.automaton i (hs.valid i hi), h.keeps.notes i (hs.valid i hi),
    h.keeps.transitionCaching]

/-! ### The command for the caches -/

theorem cacheOn_spec (s : State) :
    s.cacheOn.automaton = s.automaton ∧ s.cacheOn.generator.caching = true ∧
      s.cacheOn.generator.transitionCaching = true ∧
      ∀ h, s.automaton = some h → h < s.generator.acceptors.size →
        (s.generator.acceptor h).automaton.deterministic = false →
          (s.cacheOn.generator.acceptor h).caching = true := by
  unfold State.cacheOn
  rcases ha : s.automaton with _ | i
  · exact ⟨rfl, rfl, rfl, nofun⟩
  · dsimp only
    split
    · rename_i hdet
      refine ⟨rfl, rfl, rfl, fun h hi _ hh => ?_⟩
      cases hi
      cases hh.symm.trans hdet
    · refine ⟨rfl, rfl, rfl, fun h hi hlt _ => ?_⟩
      cases hi
      exact Generator.caching_set _ _ hlt

theorem cacheOff_spec (s : State) :
    s.cacheOff.automaton = s.automaton ∧ s.cacheOff.generator.caching = false ∧
      s.cacheOff.generator.transitionCaching = false ∧
      ∀ h, s.automaton = some h → h < s.generator.acceptors.size →
        (s.cacheOff.generator.acceptor h).caching = false := by
  unfold State.cacheOff
  rcases ha : s.automaton with _ | i
  · exact ⟨rfl, rfl, rfl, nofun⟩
  · refine ⟨rfl, rfl, rfl, fun h hi hlt => ?_⟩
    cases hi
    exact Generator.caching_set _ _ hlt

theorem cacheClear_spec (s : State) :
    s.cacheClear.automaton = s.automaton ∧
      s.cacheClear.generator.caching = s.generator.caching ∧
      s.cacheClear.generator.transitionCaching = s.generator.transitionCaching ∧
      ∀ h, s.automaton = some h → h < s.generator.acceptors.size →
        (s.cacheClear.generator.acceptor h).caching = (s.generator.acceptor h).caching := by
  unfold State.cacheClear
  rcases ha : s.automaton with _ | i
  · exact ⟨rfl, rfl, rfl, nofun⟩
  · refine ⟨rfl, rfl, rfl, fun h hi hlt => ?_⟩
    cases hi
    exact Generator.caching_set _ _ hlt

theorem Sound.cache (hs : Sound s) (action : Option CacheAction) : Sound (s.cache action).1 := by
  have hcontinues := cache_continues hs.generator hs.valid action
  have hvalid : ∀ h, s.automaton = some h → h < (s.cache action).1.generator.acceptors.size :=
    fun h hh => (hs.valid h hh).trans_le hcontinues.size
  rcases action with _ | _ | _ | _
  · exact hs
  · obtain ⟨hsame, hcaching, htransition, -⟩ := cacheOn_spec s
    refine ⟨hcontinues.consistent, fun h hh => hvalid h (hsame ▸ hh),
      htransition.trans hcaching.symm, fun hoff => ?_⟩
    cases htransition.symm.trans hoff
  · obtain ⟨hsame, hcaching, htransition, hnotes⟩ := cacheOff_spec s
    refine ⟨hcontinues.consistent, fun h hh => hvalid h (hsame ▸ hh),
      htransition.trans hcaching.symm, fun _ h hh => ?_⟩
    have hh' : s.automaton = some h := hsame ▸ hh
    exact hnotes h hh' (hs.valid h hh')
  · obtain ⟨hsame, hcaching, htransition, hnotes⟩ := cacheClear_spec s
    refine ⟨hcontinues.consistent, fun h hh => hvalid h (hsame ▸ hh), ?_, fun hoff h hh => ?_⟩
    · exact htransition.trans (hs.together.trans hcaching.symm)
    · have hh' : s.automaton = some h := hsame ▸ hh
      exact (hnotes h hh' (hs.valid h hh')).trans (hs.off (htransition.symm.trans hoff) h hh')

/-- The switches and the automaton in use are set together. -/
theorem Sound.inSync_cache (hs : Sound s) (hsync : InSync s) (action : Option CacheAction) :
    InSync (s.cache action).1 := by
  have hcontinues := cache_continues hs.generator hs.valid action
  intro h hh hdet
  rcases action with _ | _ | _ | _
  · exact hsync h hh hdet
  · obtain ⟨hsame, -, htransition, hnotes⟩ := cacheOn_spec s
    have hh' : s.automaton = some h := hsame ▸ hh
    have hlt := hs.valid h hh'
    rw [hcontinues.automaton h hlt] at hdet
    exact (hnotes h hh' hlt hdet).trans htransition.symm
  · obtain ⟨hsame, -, htransition, hnotes⟩ := cacheOff_spec s
    have hh' : s.automaton = some h := hsame ▸ hh
    exact (hnotes h hh' (hs.valid h hh')).trans htransition.symm
  · obtain ⟨hsame, -, htransition, hnotes⟩ := cacheClear_spec s
    have hh' : s.automaton = some h := hsame ▸ hh
    have hlt := hs.valid h hh'
    rw [hcontinues.automaton h hlt] at hdet
    exact (hnotes h hh' hlt).trans ((hsync h hh' hdet).trans htransition.symm)

/-! ### One command -/

theorem Sound.aim (hs : Sound s) (c : Command) : Sound (s.aim c) := by
  cases c with
  | compile verbose pattern =>
    obtain ⟨hkeeps, hnew⟩ := hs.generator.generate_cases pattern
    have hprovides := hs.generator.generate pattern
    rcases hg : s.generator.generate pattern with ⟨g, e | h⟩
    · rw [aim_compile_error hg]
      rw [hg] at hkeeps
      exact hs.goesOn ⟨hkeeps, rfl⟩
    · rw [aim_compile hg]
      rw [hg] at hkeeps hnew hprovides
      refine ⟨hprovides.continues.consistent, ?_, ?_, ?_⟩
      · rintro i hi
        cases hi
        exact hprovides.valid h rfl
      · show g.transitionCaching = g.caching
        rw [hkeeps.transitionCaching, hkeeps.caching]
        exact hs.together
      · rintro hoff i hi
        cases hi
        have hoff' : s.generator.transitionCaching = false := hkeeps.transitionCaching ▸ hoff
        -- while the switches are off nothing comes from memory
        rcases hnew h rfl with ⟨hcaching, -⟩ | hnew
        · cases (hs.together.symm.trans hoff').symm.trans hcaching
        · rw [hnew, hoff', Bool.false_and]
  | cache action => exact hs.cache action
  | _ => exact hs

/-- After a pattern has been compiled the two differ just if its automaton has come from memory and
keeps no notes. -/
theorem Sound.inSync_compile (hs : Sound s) {g : Generator} {h : Handle} {pattern : Text}
    (hg : s.generator.generate pattern = (g, .ok h))
    (hdet : (g.acceptor h).automaton.deterministic = false) :
    (g.acceptor h).caching = g.transitionCaching ↔
      (s.generator.Knows pattern h → (s.generator.acceptor h).caching = true) := by
  obtain ⟨hkeeps, hnew⟩ := hs.generator.generate_cases pattern
  rw [hg] at hkeeps hnew
  by_cases hknows : s.generator.Knows pattern h
  · have hon : s.generator.transitionCaching = true := hs.together.trans hknows.1
    rw [hkeeps.notes h (hs.generator.lt_of_knows hknows), hkeeps.transitionCaching, hon]
    exact ⟨fun hnotes _ => hnotes, fun hnotes => hnotes hknows⟩
  · have hnew := (hnew h rfl).resolve_left hknows
    refine iff_of_true ?_ fun h => absurd h hknows
    rw [hnew, hdet, hkeeps.transitionCaching, Bool.not_false, Bool.and_true]

theorem Sound.inSync_aim (hs : Sound s) (hsync : InSync s) (c : Command)
    (hc : ∀ verbose pattern h, c = .compile verbose pattern → s.generator.Knows pattern h →
      (s.generator.acceptor h).automaton.deterministic = false →
        (s.generator.acceptor h).caching = true) :
    InSync (s.aim c) := by
  cases c with
  | compile verbose pattern =>
    obtain ⟨hkeeps, -⟩ := hs.generator.generate_cases pattern
    rcases hg : s.generator.generate pattern with ⟨g, e | h⟩
    · rw [aim_compile_error hg]
      rw [hg] at hkeeps
      have hgoes : GoesOn s { s with generator := g } := ⟨hkeeps, rfl⟩
      exact (hs.inSync_iff hgoes).2 hsync
    · rw [aim_compile hg]
      rw [hg] at hkeeps
      rintro i hi hdet
      cases hi
      refine (hs.inSync_compile hg hdet).2 fun hknows => ?_
      refine hc verbose pattern h rfl hknows ?_
      rw [← hkeeps.continues.automaton h (hs.generator.lt_of_knows hknows)]
      exact hdet
  | cache action => exact hs.inSync_cache hsync action
  | _ => exact hsync

/-! ### Any number of lines -/

theorem Sound.aimLine (hs : Sound s) (line : Text) : Sound (s.aimLine line) := by
  unfold State.aimLine
  split
  · exact hs.aim _
  · exact hs

theorem Sound.inSync_aimLine (hs : Sound s) (hsync : InSync s) {line : Text}
    (hline : ¬ StaleHit s line) : InSync (s.aimLine line) := by
  unfold State.aimLine
  split
  · rename_i c hread
    refine hs.inSync_aim hsync c fun verbose pattern h hc hknows hdet => ?_
    by_contra hoff
    exact hline ⟨verbose, pattern, h, hc ▸ hread, hknows, hdet, Bool.eq_false_iff.2 hoff⟩
  · exact hsync

theorem Sound.after (hs : Sound s) {line : Text} (hline : Plain line) {σ : Type}
    (host : Host (StateM σ)) (world : σ) (depth : Nat) :
    Sound (s.after host world depth line) :=
  (hs.aimLine line).goesOn (after_goesOn host hs.generator hs.valid hline world depth)

theorem sound_of_reachable (hs : Reachable (fun _ line => Plain line) s) : Sound s := by
  induction hs with
  | start => exact sound_new
  | startOff => exact sound_new.cache (some .off)
  | line _ hline host world depth ih => exact ih.after hline host world depth

/-- In every state that lines lead to, from a start with or without caches, the automaton in use
keeps notes just if new automata do, unless it is deterministic or a stale hit has come before.  A
stale hit makes them differ. -/
theorem automaton_inSync (s : State) :
    (Reachable (fun s line => Plain line ∧ ¬ StaleHit s line) s → InSync s) ∧
      (Reachable (fun _ line => Plain line) s → ∀ line, StaleHit s line →
        ∀ (σ : Type) (host : Host (StateM σ)) (world : σ) (depth : Nat),
          ¬ InSync (s.after host world depth line)) := by
  constructor
  · intro hs
    induction hs with
    | start => exact fun _ hh => nomatch hh
    | startOff => exact fun _ hh => nomatch hh
    | line hs hline host world depth ih =>
      have hsound := sound_of_reachable (hs.mono fun _ _ h => h.1)
      have hgoes := after_goesOn host hsound.generator hsound.valid hline.1 world depth
      exact ((hsound.aimLine _).inSync_iff hgoes).2 (hsound.inSync_aimLine ih hline.2)
  · intro hs line hstale σ host world depth hsync
    have hsound := sound_of_reachable hs
    obtain ⟨verbose, pattern, h, hread, hknows, hdet, hoff⟩ := hstale
    have hline : Plain line := fun files hfiles => nomatch hread.symm.trans hfiles
    have hgoes := after_goesOn host hsound.generator hsound.valid hline world depth
    set g := (s.generator.generate pattern).1 with hgdef
    have hg : s.generator.generate pattern = (g, .ok h) :=
      Prod.ext rfl (hsound.generator.generate_of_knows hknows)
    have haim : s.aimLine line = ⟨g, some pattern, some h⟩ :=
      (aimLine_of_command hread).trans (aim_compile hg verbose)
    rw [haim] at hgoes
    have hsound' : Sound ⟨g, some pattern, some h⟩ := haim ▸ hsound.aimLine line
    have hkeeps : s.generator.Keeps g := (hsound.generator.generate_cases pattern).1
    have hdet' : (g.acceptor h).automaton.deterministic = false := by
      rw [hkeeps.continues.automaton h (hsound.generator.lt_of_knows hknows)]
      exact hdet
    -- in sync, the automaton would have to be one that has not been switched off
    have hagree := (hsound'.inSync_iff hgoes).1 hsync h rfl hdet'
    have hon := (hsound.inSync_compile hg hdet').1 hagree hknows
    cases hoff.symm.trans hon

/-- Surroundings without files, in which no time passes. -/
def stillHost : Host (StateM Unit) := ⟨"", fun _ => pure (.error .notFound), pure 0⟩

/-- The shell after some lines in such surroundings. -/
def afterEach (s : State) (lines : List Text) : State :=
  lines.foldl (fun s line => s.after stillHost () 0 line) s

theorem Reachable.afterEach {lines : List Text} (hs : Reachable (fun _ line => Plain line) s)
    (hlines : ∀ line ∈ lines, Plain line) :
    Reachable (fun _ line => Plain line) (afterEach s lines) := by
  induction lines generalizing s with
  | nil => exact hs
  | cons line lines ih =>
    obtain ⟨hline, hrest⟩ := List.forall_mem_cons.1 hlines
    exact ih (hs.line hline stillHost () 0) hrest

/-- The automaton of `a` is switched off with the caches, and out of use when they are switched on
again. -/
theorem automaton_inSync_switchedOff :
    let s := afterEach .new ["compile a".toList, "cache off".toList, "compile b".toList,
      "cache on".toList]
    Reachable (fun _ line => Plain line) s ∧ StaleHit s "compile a".toList ∧
      ¬ InSync (s.after stillHost () 0 "compile a".toList) := by
  intro s
  have hplain : ∀ {line c}, readLine line = .ok (some c) → (∀ files, c ≠ .source files) →
      Plain line :=
    fun hread hc files hfiles =>
      hc files (Option.some.inj (Except.ok.inj (hread.symm.trans hfiles)))
  have hcompile : readLine "compile a".toList = .ok (some (.compile false ['a'])) := by
    decide +kernel
  have hs : Reachable (fun _ line => Plain line) s := by
    refine Reachable.start.afterEach fun line hline => ?_
    simp only [List.mem_cons, List.not_mem_nil, or_false] at hline
    rcases hline with rfl | rfl | rfl | rfl
    · exact hplain hcompile (fun _ => nofun)
    · exact hplain (c := .cache (some .off)) (by decide +kernel) (fun _ => nofun)
    · exact hplain (c := .compile false ['b']) (by decide +kernel) (fun _ => nofun)
    · exact hplain (c := .cache (some .on)) (by decide +kernel) (fun _ => nofun)
  have hcanonical : canonical s.generator.alphabet ['a'] = .ok ['a'] := by decide +kernel
  have hknows : s.generator.Knows ['a'] 0 :=
    ⟨by decide +kernel, ['a'], hcanonical, by decide +kernel⟩
  have hstale : StaleHit s "compile a".toList :=
    ⟨false, ['a'], 0, hcompile, hknows, by decide +kernel, by decide +kernel⟩
  exact ⟨hs, hstale, (automaton_inSync s).2 hs _ hstale Unit stillHost () 0⟩

end RegexAutomata.Shell
