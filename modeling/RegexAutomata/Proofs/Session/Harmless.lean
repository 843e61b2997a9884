/-
Sessions that change no automaton.

Most steps leave the automata that have been made as they are: they make new ones, read with them,
or turn to what is remembered (`Step.harmless`).  The others put edges into the shared graph, or
mark or invert an automaton.

* `Session.Consistent.step` — a harmless step leads from a consistent session to a consistent one;
* `Session.Consistent.after` — and so do any number of them;
* `Session.generate_after_harmless` — whatever harmless steps have been run, a pattern gets the same
  error as from a new generator, or an automaton that accepts the same.
-/
import RegexAutomata.Proofs.Compile.Memories
import RegexAutomata.Session.Run

namespace RegexAutomata

/-! ### Harmless steps -/

/-- Is the automaton made without a change to the vertices of others? -/
def Making.harmless : Making → Bool
  | generate _ | evaluate _ | complement _ | complementOver _ _ => true
  | _ => false

/-- Does the change concern only what the automaton notes? -/
def Change.harmless : Change → Bool
  | enableCaching | disableCaching | clearMemo => true
  | _ => false

/-- Does the step leave all automata that have been made as they are? -/
def Step.harmless : Step → Bool
  | make _ how => how.harmless
  | change _ how => how.harmless
  | _ => true

namespace Session

/-- What a session is after a step, when the events of the step have been told. -/
def next (s : Session) (st : Step) : Session :=
  { (s.step st).1 with generator := (s.step st).1.generator.forgetEvents }

/-- What a session is after some steps. -/
def after (s : Session) (steps : List Step) : Session := steps.foldl next s

/-- The generator is consistent, names and visits stand for automata that it has made, and visits
are at vertices. -/
structure Consistent (s : Session) : Prop where
  generator : s.generator.Consistent
  names : ∀ name h, s.names.get? name = some h → h < s.generator.acceptors.size
  visits : ∀ name h v, s.visits.get? name = some (h, v) →
    h < s.generator.acceptors.size ∧ v.state.Inside s.graph

variable {s : Session} {g : Generator} {h : Handle} {name : String}

theorem consistent_new (hg : g.Consistent) : (new g).Consistent := ⟨hg, nofun, nofun⟩

theorem Consistent.valid (hs : s.Consistent) (hh : s.handle name = .ok h) :
    h < s.generator.acceptors.size := by
  unfold handle at hh
  split at hh
  · rename_i h' hget
    cases hh
    exact hs.names name _ hget
  · cases hh

/-- The session goes on with another generator. -/
theorem Consistent.goesOn (hs : s.Consistent) (hg : s.generator.Continues g) :
    { s with generator := g }.Consistent where
  generator := hg.consistent
  names name h hget := (hs.names name h hget).trans_le hg.size
  visits name h v hget := by
    obtain ⟨hh, hv⟩ := hs.visits name h v hget
    exact ⟨hh.trans_le hg.size, hv.grow hg.graph⟩

theorem Consistent.putName (hs : s.Consistent) (hh : h < s.generator.acceptors.size)
    (name : String) : { s with names := s.names.put name h }.Consistent where
  generator := hs.generator
  names := by
    intro name' h' hget
    rw [Table.get?_put] at hget
    split at hget
    · cases hget
      exact hh
    · exact hs.names name' h' hget
  visits := hs.visits

theorem Consistent.eraseName (hs : s.Consistent) (name : String) :
    { s with names := s.names.erase name }.Consistent where
  generator := hs.generator
  names := by
    intro name' h' hget
    rw [Table.get?_erase] at hget
    split at hget
    · cases hget
    · exact hs.names name' h' hget
  visits := hs.visits

theorem Consistent.putVisit (hs : s.Consistent) (hh : h < s.generator.acceptors.size) {v : Visit}
    (hv : v.state.Inside s.graph) (name : String) :
    { s with visits := s.visits.put name (h, v) }.Consistent where
  generator := hs.generator
  names := hs.names
  visits := by
    intro name' h' v' hget
    rw [Table.get?_put] at hget
    split at hget
    · cases hget
      exact ⟨hh, hv⟩
    · exact hs.visits name' h' v' hget

/-! ### One step -/

/-- An automaton is made of the one that a name stands for. -/
theorem Consistent.provides_of_handle (hs : s.Consistent) (of : String)
    {f : Handle → Generator × Except StepError Handle}
    (hf : ∀ h < s.generator.acceptors.size, s.generator.Provides (f h)) :
    s.generator.Provides (match s.handle of with
      | .error e => (s.generator, .error e)
      | .ok h => f h) := by
  cases hhandle : s.handle of with
  | error e => exact ⟨hs.generator.refl, fun _ h => by cases h⟩
  | ok h => exact hf h (hs.valid hhandle)

theorem Consistent.make (hs : s.Consistent) {how : Making} (hhow : how.harmless = true) :
    s.generator.Provides (s.make how) := by
  have hg := hs.generator
  cases how with
  | generate p => exact (hg.generate p).mapError _
  | evaluate c => exact (hg.evaluate c).mapError _
  | complement of => exact hs.provides_of_handle of fun h hh => hg.complement hh _
  | complementOver of a => exact hs.provides_of_handle of fun h hh => hg.complementOver a hh _
  | _ => cases hhow

theorem inside_pick {x : Acceptor} {graph : Graph} (hx : x.Settled graph) (ids : List Int) :
    (pick graph x.automaton ids).Inside graph := by
  intro v hv
  have hreachable : v ∈ x.automaton.vertices graph := by
    rw [pick, VertexSet.mem_ofList] at hv
    exact (List.mem_filter.1 hv).1
  exact graph.region_vertices.of_reaches hx.start (Graph.mem_reachable.1 hreachable)

theorem continues_change (hg : g.Consistent) (hh : h < g.acceptors.size) {how : Change}
    (hhow : how.harmless = true) : g.Continues (change g h how).1 := by
  have hsettled := hg.settled h hh
  cases how with
  | enableCaching => exact hg.set hh (hsettled.withCaching true) rfl
  | disableCaching => exact hg.set hh (hsettled.withCaching false) rfl
  | clearMemo => exact hg.set hh hsettled.clearMemo rfl
  | link => cases hhow
  | markDeterministic => cases hhow
  | invert => cases hhow

theorem continues_ask (hg : g.Consistent) (hh : h < g.acceptors.size) (what : Question) :
    g.Continues (ask g h what).1 := by
  have hsettled := hg.settled h hh
  cases what with
  | accepts inputs =>
    obtain ⟨hread, hsame⟩ := hsettled.acceptsEach inputs
    exact hg.set hh hread hsame
  | advance states symbol =>
    refine hg.set hh (hsettled.advance (inside_pick hsettled states) symbol) ?_
    exact (Acceptor.advance_spec hsettled.faithful _ symbol).2.2
  | _ => exact hg.refl

/-- A harmless step keeps the session consistent and its automata as they are. -/
theorem Consistent.step (hs : s.Consistent) {st : Step} (hst : st.harmless = true) :
    s.generator.Continues (s.step st).1.generator ∧ (s.step st).1.Consistent := by
  have hg := hs.generator
  have hsame : s.generator.Continues s.generator ∧ s.Consistent := ⟨hg.refl, hs⟩
  cases st with
  | make name how =>
    obtain ⟨hcontinues, hvalid⟩ := hs.make hst
    rcases heq : s.make how with ⟨g, _ | h⟩
    · rw [heq] at hcontinues
      simp only [Session.step, heq]
      exact ⟨hcontinues, hs.goesOn hcontinues⟩
    · rw [heq] at hcontinues hvalid
      simp only [Session.step, heq]
      exact ⟨hcontinues, (hs.goesOn hcontinues).putName (hvalid h rfl) name⟩
  | change name how =>
    cases hhandle : s.handle name with
    | error e => simpa only [Session.step, hhandle] using hsame
    | ok h =>
      have hcontinues := continues_change hg (hs.valid hhandle) hst
      simp only [Session.step, hhandle]
      exact ⟨hcontinues, hs.goesOn hcontinues⟩
  | drop name =>
    cases hhandle : s.handle name with
    | error e => simpa only [Session.step, hhandle] using hsame
    | ok h =>
      simp only [Session.step, hhandle]
      exact ⟨hg.refl, hs.eraseName name⟩
  | ask name what =>
    cases hhandle : s.handle name with
    | error e => simpa only [Session.step, hhandle] using hsame
    | ok h =>
      have hcontinues := continues_ask hg (hs.valid hhandle) what
      simp only [Session.step, hhandle]
      exact ⟨hcontinues, hs.goesOn hcontinues⟩
  | same first second =>
    cases hfirst : s.handle first with
    | error e => simpa only [Session.step, hfirst] using hsame
    | ok f =>
      cases hsecond : s.handle second with
      | error e => simpa only [Session.step, hfirst, hsecond] using hsame
      | ok h => simpa only [Session.step, hfirst, hsecond] using hsame
  | visit name of =>
    cases hhandle : s.handle of with
    | error e => simpa only [Session.step, hhandle] using hsame
    | ok h =>
      have hh := hs.valid hhandle
      simp only [Session.step, hhandle]
      exact ⟨hg.refl, hs.putVisit hh (hg.settled h hh).inside_initial name⟩
  | feed visit symbols =>
    cases hvisit : s.visits.get? visit with
    | none => simpa only [Session.step, hvisit] using hsame
    | some e =>
      obtain ⟨h, v⟩ := e
      obtain ⟨hh, hv⟩ := hs.visits visit h v hvisit
      have hsettled := hg.settled h hh
      obtain ⟨hread, hinside⟩ := hsettled.feed hv symbols
      have hcontinues := hg.set hh hread (Visit.feed_spec hsettled.faithful v symbols).2.2
      simp only [Session.step, hvisit]
      exact ⟨hcontinues, (hs.goesOn hcontinues).putVisit (hh.trans_le hcontinues.size) hinside _⟩
  | elongate pattern =>
    obtain ⟨hcontinues, _⟩ := hg.elongate pattern
    rcases heq : s.generator.elongate pattern with ⟨g, _ | c⟩
    · rw [heq] at hcontinues
      simp only [Session.step, heq]
      exact ⟨hcontinues, hs.goesOn hcontinues⟩
    · rw [heq] at hcontinues
      simp only [Session.step, heq]
      exact ⟨hcontinues, hs.goesOn hcontinues⟩
  | switch caching transitionCaching =>
    have hcontinues := hg.switch (caching.getD s.generator.caching)
      (transitionCaching.getD s.generator.transitionCaching) s.generator.complementCaching
    exact ⟨hcontinues, hs.goesOn hcontinues⟩
  | switchComplements value =>
    have hcontinues := hg.switch s.generator.caching s.generator.transitionCaching value
    exact ⟨hcontinues, hs.goesOn hcontinues⟩
  | clear which =>
    cases which with
    | patterns =>
      have hcontinues := hg.forget (.inr rfl) (.inl rfl) (.inl rfl)
      exact ⟨hcontinues, hs.goesOn hcontinues⟩
    | automata =>
      have hcontinues := hg.forget (.inl rfl) (.inr rfl) (.inl rfl)
      exact ⟨hcontinues, hs.goesOn hcontinues⟩
    | complements =>
      have hcontinues := hg.forget (.inl rfl) (.inl rfl) (.inr rfl)
      exact ⟨hcontinues, hs.goesOn hcontinues⟩
  | caches => exact hsame

/-! ### Any number of steps -/

theorem Consistent.after (hs : s.Consistent) {steps : List Step}
    (hsteps : ∀ st ∈ steps, st.harmless = true) :
    s.generator.Continues (s.after steps).generator ∧ (s.after steps).Consistent := by
  induction steps generalizing s with
  | nil => exact ⟨hs.generator.refl, hs⟩
  | cons st steps ih =>
    obtain ⟨hst, hsteps⟩ := List.forall_mem_cons.1 hsteps
    obtain ⟨hcontinues, hstep⟩ := hs.step hst
    have hforget := hstep.generator.forgetEvents
    obtain ⟨hrest, hafter⟩ := ih (s := s.next st) (hstep.goesOn hforget) hsteps
    exact ⟨(hcontinues.trans hforget).trans hrest, hafter⟩

/-- The generator of a session that has started with a new one. -/
theorem consistent_generator_after (a : Alphabet) (caching transitionCaching : Bool)
    {steps : List Step} (hsteps : ∀ st ∈ steps, st.harmless = true) :
    ((new (.new a caching transitionCaching)).after steps).generator.Consistent ∧
      ((new (.new a caching transitionCaching)).after steps).generator.alphabet = a := by
  have hnew := Generator.consistent_new a caching transitionCaching
  obtain ⟨hcontinues, hs⟩ := (consistent_new hnew).after hsteps
  exact ⟨hs.generator, hcontinues.alphabet⟩

/-- Two answers are the same error, or automata that accept the same. -/
def SameAnswer : Generator × Except BuildError Handle → Generator × Except BuildError Handle → Prop
  | (g, .ok h), (g', .ok h') => ∀ w, (g.accepts h w).2 = (g'.accepts h' w).2
  | (_, .error e), (_, .error e') => e = e'
  | _, _ => False

theorem sameAnswer_of_gives {r r' : Generator × Except BuildError Handle}
    {answer : Except BuildError (Language Symbol)} (hr : Generator.Gives r answer)
    (hr' : Generator.Gives r' answer) : SameAnswer r r' := by
  obtain ⟨g, result⟩ := r
  obtain ⟨g', result'⟩ := r'
  cases answer with
  | error e =>
    obtain rfl : result = .error e := hr
    obtain rfl : result' = .error e := hr'
    exact rfl
  | ok L =>
    obtain ⟨h, rfl, hh⟩ := hr
    obtain ⟨h', rfl, hh'⟩ := hr'
    intro w
    rw [Bool.eq_iff_iff, hh.accepts_iff, hh'.accepts_iff]

/-- After any harmless steps, a generator answers to a pattern as a new one for the same alphabet
does, whichever of their memories were switched on at first. -/
theorem generate_after_harmless (a : Alphabet)
    (caching transitionCaching caching' transitionCaching' : Bool) (steps : List Step)
    (hsteps : ∀ st ∈ steps, st.harmless = true) (p : Text) :
    SameAnswer
      (((new (.new a caching transitionCaching)).after steps).generator.generate p)
      ((Generator.new a caching' transitionCaching').generate p) := by
  have hnew := Generator.consistent_new a caching transitionCaching
  have hnew' := Generator.consistent_new a caching' transitionCaching'
  obtain ⟨hcontinues, hafter⟩ := (consistent_new hnew).after hsteps
  obtain ⟨answer, hanswer⟩ := Generator.exists_answer a p
  exact sameAnswer_of_gives (hanswer _ hafter.generator hcontinues.alphabet).2
    (hanswer _ hnew' rfl).2

/-- An automaton is made, used, negated and forgotten, and a wrong pattern is tried in between. -/
def busySession : List Step :=
  [.make "star" (.generate ['a', '*']), .ask "star" (.accepts [["a", "b"], ["a"]]),
    .make "wrong" (.generate ['(', 'a']), .change "star" .disableCaching,
    .make "other" (.complement "star"), .visit "reading" "other", .feed "reading" ["a", "("],
    .switch (some false) none, .elongate ['a', '+'], .clear .automata, .switchComplements false]

theorem generate_after_harmless_busySession :
    (∀ st ∈ busySession, st.harmless = true) ∧
      SameAnswer
        (((new (.new (.ofText ['a']) true false)).after busySession).generator.generate
          ['!', '(', 'a', '+', ')'])
        ((Generator.new (.ofText ['a']) false true).generate ['!', '(', 'a', '+', ')']) ∧
      SameAnswer
        (((new (.new (.ofText ['a']) true false)).after busySession).generator.generate ['(', 'a'])
        ((Generator.new (.ofText ['a']) false true).generate ['(', 'a']) := by
  have hharmless : ∀ st ∈ busySession, st.harmless = true := by
    simp [busySession, Step.harmless, Making.harmless, Change.harmless]
  have hanswer :=
    generate_after_harmless (.ofText ['a']) true false false true busySession hharmless
  exact ⟨hharmless, hanswer ['!', '(', 'a', '+', ')'], hanswer ['(', 'a']⟩

end Session

end RegexAutomata
