/-
What a session does to its builder.

A session owns one builder, and whatever its steps do to it is made up of operations
(`Builder.Operation`): compiling a pattern carries out its instructions one after the other, and the
other steps take one operation or none.  So the constructions before a step are earlier ones, and no
number of a vertex that stands for a set is used twice in a session.

* `Builder.operates_compile` — a pattern is compiled;
* `Session.operates_step`, `Session.operates_after` — steps of a session;
* `Session.id_lt_after` — constructions at different times of a session.
-/
import RegexAutomata.Proofs.Automaton.ReachableSets
import RegexAutomata.Proofs.Session.Harmless

namespace RegexAutomata

open Builder (Operation)

/-! ### Patterns -/

theorem Builder.stepRelation_operates (symbols : List Symbol) :
    StepRelation symbols Operates where
  refl _ := .refl
  trans := .trans
  atom b x := .single (.atom b x)
  concatenate b f s := .single (.concatenate b f s)
  union b f s := .single (.union b f s)
  star b f := .single (.star b f)
  complement b f := .single (.complement b symbols f)

theorem Builder.operates_compile (b : Builder) (alphabet : Alphabet) (c : Text) :
    b.Operates (b.compile alphabet c).1 := by
  have hrun := (stepRelation_operates alphabet.operating).runInstrs { b with nextId := 0 } []
    (Program.ofText alphabet c).instrs
  have hcompile : (b.compile alphabet c).1 = (runInstrs alphabet.operating { b with nextId := 0 } []
      (Program.ofText alphabet c).instrs).1 := by
    unfold compile
    dsimp only
    split
    · rename_i hexec
      rw [hexec]
    · rename_i hexec
      rw [hexec]
      split <;> rfl
  rw [hcompile]
  exact .head (.restart b) hrun

/-! ### Generators -/

namespace Generator

variable (g : Generator)

theorem operates_elongate (p : Text) : g.builder.Operates (g.elongate p).1.builder := by
  unfold elongate
  split
  · exact .single (.report g.builder _)
  · split
    · exact .refl
    · exact .single (.report g.builder _)

theorem operates_evaluate (c : Text) : g.builder.Operates (g.evaluate c).1.builder := by
  have hcompile := g.builder.operates_compile g.alphabet c
  unfold evaluate
  split
  · rename_i hmade
    rw [hmade] at hcompile
    exact hcompile
  · rename_i hmade
    rw [hmade] at hcompile
    exact hcompile

theorem operates_generate (p : Text) : g.builder.Operates (g.generate p).1.builder := by
  have helongate := g.operates_elongate p
  unfold generate
  split
  · rename_i hlong
    rw [hlong] at helongate
    exact helongate
  · rename_i g' c hlong
    rw [hlong] at helongate
    split
    · exact helongate.tail (.report _ _)
    · have hevaluate := g'.operates_evaluate c
      split
      · rename_i hmade
        rw [hmade] at hevaluate
        exact helongate.trans hevaluate
      · rename_i g'' h hmade
        rw [hmade] at hevaluate
        -- the switches decide what is noted, but not what is built
        have hreport : ∀ e : Event, g.builder.Operates (g''.builder.report e) :=
          fun e => (helongate.trans hevaluate).tail (.report _ e)
        dsimp only
        split <;> split <;> exact hreport _

theorem operates_keepBuilt? (made : Builder × Option Automaton) (h : Operation g.builder made.1) :
    g.builder.Operates (g.keepBuilt? made).1.builder := by
  unfold keepBuilt?
  dsimp only
  split
  · exact .single h
  · exact .single h

theorem operates_uninverted (h : Handle) : g.builder.Operates (g.uninverted h).1.builder := by
  unfold uninverted
  dsimp only
  split
  · exact .refl
  · unfold keepBuilt?
    dsimp only
    split
    · exact .refl
    · exact .refl

theorem operates_complementOver (alphabet : Alphabet) (h : Handle) :
    g.builder.Operates (g.complementOver alphabet h).1.builder :=
  .single (.complement g.builder _ _)

theorem operates_complement (h : Handle) : g.builder.Operates (g.complement h).1.builder := by
  unfold complement
  split
  · split
    · exact .single (.report g.builder _)
    · exact g.operates_complementOver g.alphabet h
  · exact g.operates_complementOver g.alphabet h

end Generator

/-! ### Sessions -/

namespace Session

theorem operates_of_handle (s : Session) (of : String)
    {f : Handle → Generator × Except StepError Handle}
    (hf : ∀ h, s.generator.builder.Operates (f h).1.builder) :
    s.generator.builder.Operates (match s.handle of with
      | .error e => ((s.generator, .error e) : Generator × Except StepError Handle)
      | .ok h => f h).1.builder := by
  cases s.handle of with
  | error e => exact .refl
  | ok h => exact hf h

theorem operates_make (s : Session) (how : Making) :
    s.generator.builder.Operates (s.make how).1.builder := by
  cases how with
  | generate p => exact s.generator.operates_generate p
  | evaluate c => exact s.generator.operates_evaluate c
  | atom a => exact .single (.atom _ a)
  | emptyString => exact .single (.emptyString _)
  | concatenate first second =>
    exact s.operates_of_handle first fun f => s.operates_of_handle second fun h =>
      s.generator.operates_keepBuilt? _ (.concatenate _ _ _)
  | union first second =>
    exact s.operates_of_handle first fun f => s.operates_of_handle second fun h =>
      s.generator.operates_keepBuilt? _ (.union _ _ _)
  | star of =>
    exact s.operates_of_handle of fun h => s.generator.operates_keepBuilt? _ (.star _ _)
  | complement of => exact s.operates_of_handle of fun h => s.generator.operates_complement h
  | complementOver of alphabet =>
    exact s.operates_of_handle of fun h => s.generator.operates_complementOver alphabet h
  | uninverted of => exact s.operates_of_handle of fun h => s.generator.operates_uninverted h
  | build plan => exact .single (.build _ plan)

theorem operates_change (g : Generator) (h : Handle) (how : Change) :
    g.builder.Operates (change g h how).1.builder := by
  cases how with
  | link source label dest =>
    unfold change
    dsimp only
    split
    · exact .single (.link _ _ _ _)
    · exact .refl
  | _ => exact .refl

theorem builder_ask (g : Generator) (h : Handle) (what : Question) :
    (ask g h what).1.builder = g.builder := by
  cases what <;> rfl

/-- A step carries out operations on the builder, and changes it in no other way. -/
theorem operates_step (s : Session) (st : Step) :
    s.generator.builder.Operates (s.step st).1.generator.builder := by
  cases st with
  | make name how =>
    have hmake := s.operates_make how
    unfold step
    dsimp only
    split
    · rename_i hmade
      rw [hmade] at hmake
      exact hmake
    · rename_i hmade
      rw [hmade] at hmake
      exact hmake
  | change name how =>
    unfold step
    dsimp only
    split
    · exact .refl
    · exact operates_change s.generator _ how
  | ask name what =>
    unfold step
    dsimp only
    split
    · exact .refl
    · rename_i h _
      show s.generator.builder.Operates (ask s.generator h what).1.builder
      rw [builder_ask]
  | elongate pattern =>
    have helongate := s.generator.operates_elongate pattern
    unfold step
    dsimp only
    split
    · rename_i hlong
      rw [hlong] at helongate
      exact helongate
    · rename_i hlong
      rw [hlong] at helongate
      exact helongate
  | drop name | visit name of =>
    unfold step
    dsimp only
    split <;> exact .refl
  | feed visit symbols =>
    unfold step
    dsimp only
    split <;> exact .refl
  | same first second =>
    unfold step
    dsimp only
    split
    · exact .refl
    · split <;> exact .refl
  | clear which => cases which <;> exact .refl
  | switch | switchComplements | caches => exact .refl

theorem operates_after (s : Session) (steps : List Step) :
    s.generator.builder.Operates (s.after steps).generator.builder := by
  induction steps generalizing s with
  | nil => exact .refl
  | cons st steps ih => exact ((s.operates_step st).tail (.forgetEvents _)).trans (ih (s.next st))

/-- A construction before some steps of a session has other numbers than one after them. -/
theorem id_lt_after (s : Session) (steps : List Step) {b : Builder} {symbols symbols' : List Symbol}
    {a a' : Automaton} (hb : (b.subsetComplement symbols a).1.Operates s.generator.builder)
    {u v : Nat}
    (hu : u ∈ (b.subsetComplement symbols a).2.vertices (b.subsetComplement symbols a).1.graph) :
    let later := (s.after steps).generator.builder.subsetComplement symbols' a'
    v ∈ later.2.vertices later.1.graph →
      later.1.graph.id v < (b.subsetComplement symbols a).1.graph.id u :=
  Builder.id_lt_of_earlier (hb.trans (s.operates_after steps)) hu

end Session

end RegexAutomata
