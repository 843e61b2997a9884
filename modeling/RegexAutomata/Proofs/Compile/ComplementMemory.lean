/-
What the memory of complements is worth when automata change.

A generator remembers a complement under the automaton that it belongs to, but either of the two can
be inverted later.  Reading with them, and switching their notes on and off, does not matter; what
matters is how often each of the two has been inverted since the complement was made
(`Call.since`, `Call.inversions`).

* `Generator.Remembers.call` — what one call does to the memory and to what it says;
* `Generator.Remembers.after` — and any number of them;
* `Generator.complement_after` — what the answer to a call accepts then, and when it is right.
-/
import RegexAutomata.Proofs.Automaton.RepeatedComplement
import RegexAutomata.Proofs.Compile.Memories

namespace RegexAutomata

/-! ### Inversions -/

namespace Automaton

variable {a : Automaton} {g g' : Graph} {symbols : List Symbol} {i j : Nat}

/-- The automaton after a number of inversions. -/
def turned (k : Nat) (a : Automaton) : Automaton := if Odd k then a.invert else a

theorem turned_of_even {k : Nat} (hk : Even k) : a.turned k = a :=
  if_neg (Nat.not_odd_iff_even.2 hk)

theorem turned_of_odd {k : Nat} (hk : Odd k) : a.turned k = a.invert := if_pos hk

theorem invert_invert (a : Automaton) : a.invert.invert = a := by
  simp [invert]

/-- What happened first can be undone again. -/
theorem turned_turned (a : Automaton) (i j : Nat) : (a.turned j).turned (i + j) = a.turned i := by
  rcases Nat.even_or_odd i with hi | hi <;> rcases Nat.even_or_odd j with hj | hj
  · rw [turned_of_even hj, turned_of_even (hi.add hj), turned_of_even hi]
  · rw [turned_of_odd hj, turned_of_odd (hi.add_odd hj), turned_of_even hi, invert_invert]
  · rw [turned_of_even hj, turned_of_odd (hi.add_even hj), turned_of_odd hi]
  · rw [turned_of_odd hj, turned_of_even (hi.add_odd hj), turned_of_odd hi]

@[simp] theorem start_turned (a : Automaton) (k : Nat) : (a.turned k).start = a.start := by
  unfold turned
  split <;> rfl

@[simp] theorem deterministic_turned (a : Automaton) (k : Nat) :
    (a.turned k).deterministic = a.deterministic := by
  unfold turned
  split <;> rfl

theorem TotalOver.turned (h : a.TotalOver g symbols) (k : Nat) :
    (a.turned k).TotalOver g symbols := by
  unfold Automaton.turned
  split
  · exact h.invert
  · exact h

theorem TotalOver.grow (h : a.TotalOver g symbols) (hg : g.Grows g') (ha : a.start < g.size) :
    a.TotalOver g' symbols :=
  h.congr g.region_vertices hg.node ha

/-- What a total automaton accepts after some inversions. -/
theorem TotalOver.mem_turned (h : a.TotalOver g symbols) (k : Nat) {w : List Symbol}
    (hw : Over symbols w) : w ∈ (a.turned k).language g ↔ (w ∈ a.language g ↔ Even k) := by
  rcases Nat.even_or_odd k with hk | hk
  · rw [turned_of_even hk, iff_true_right hk]
  · rw [turned_of_odd hk, h.language_invert, mem_complementIn, and_iff_right hw,
      iff_false_right (Nat.not_even_iff_odd.2 hk)]

/-- A total automaton reads nothing but its symbols. -/
theorem TotalOver.over (h : a.TotalOver g symbols) {w : List Symbol} (hw : w ∈ a.language g) :
    Over symbols w := by
  obtain ⟨v, hv, -⟩ := hw
  exact h.onlyOver w v hv

end Automaton

namespace Generator

variable {g g' : Generator}

/-! ### Calls -/

/-- What can be asked for. -/
inductive Call where
  | complement (h : Handle)
  | accepts (h : Handle) (w : List Symbol)
  | invert (h : Handle)
  | enableCaching (h : Handle)
  | disableCaching (h : Handle)
deriving DecidableEq

namespace Call

/-- The automaton that the call is about. -/
def handle : Call → Handle
  | complement h | accepts h _ | invert h | enableCaching h | disableCaching h => h

/-- How often an automaton is inverted. -/
def inversions (h : Handle) (cs : List Call) : Nat := cs.count (.invert h)

theorem inversions_append (h : Handle) (cs ds : List Call) :
    inversions h (cs ++ ds) = inversions h cs + inversions h ds :=
  List.count_append

/-- The calls after the first one for the complement of an automaton. -/
def since (h : Handle) : List Call → List Call
  | [] => []
  | c :: cs => if c = .complement h then cs else since h cs

theorem since_append_of_mem {h : Handle} {cs : List Call} (hc : .complement h ∈ cs)
    (ds : List Call) : since h (cs ++ ds) = since h cs ++ ds := by
  induction cs with
  | nil => cases hc
  | cons c cs ih =>
    rw [List.cons_append, since, since]
    split
    · rfl
    · rename_i hne
      exact ih ((List.mem_cons.1 hc).resolve_left (Ne.symm hne))

theorem since_of_not_mem {h : Handle} {cs : List Call} (hc : .complement h ∉ cs) :
    since h cs = [] := by
  induction cs with
  | nil => rfl
  | cons c cs ih =>
    rw [since, if_neg (List.ne_of_not_mem_cons hc).symm]
    exact ih (List.not_mem_of_not_mem_cons hc)

theorem since_concat_of_not_mem {h : Handle} {cs : List Call} (hc : .complement h ∉ cs) :
    since h (cs ++ [.complement h]) = [] := by
  induction cs with
  | nil => exact if_pos rfl
  | cons c cs ih =>
    rw [List.cons_append, since, if_neg (List.ne_of_not_mem_cons hc).symm]
    exact ih (List.not_mem_of_not_mem_cons hc)

end Call

open Call

/-- The generator after a call. -/
def call (g : Generator) : Call → Generator
  | .complement h => (g.complement h).1
  | .accepts h w => (g.accepts h w).1
  | .invert h => g.set h (g.acceptor h).invert
  | .enableCaching h => g.set h (g.acceptor h).enableCaching
  | .disableCaching h => g.set h (g.acceptor h).disableCaching

/-- The generator after some calls. -/
def after (g : Generator) (cs : List Call) : Generator := cs.foldl call g

/-- Each call is about an automaton that the generator has when its turn comes. -/
def Possible (g : Generator) : List Call → Prop
  | [] => True
  | c :: cs => c.handle < g.acceptors.size ∧ (g.call c).Possible cs

/-- What a call does to the automata: it may make new ones, and invert the one that it is about. -/
structure Turns (g : Generator) (c : Call) (g' : Generator) : Prop where
  alphabet : g'.alphabet = g.alphabet
  size : g.acceptors.size ≤ g'.acceptors.size
  graph : g.graph.Grows g'.graph
  automaton : ∀ h < g.acceptors.size,
    (g'.acceptor h).automaton = (g.acceptor h).automaton.turned (inversions h [c])

/-- What an entry of the memory says, if it is not forgotten how often the two automata have been
inverted since. -/
structure Entry (g : Generator) (n r : Handle) (later : List Call) : Prop where
  key : n < g.acceptors.size
  value : r < g.acceptors.size
  deterministic : (g.acceptor r).automaton.deterministic = true
  language : ((g.acceptor r).automaton.turned (inversions r later)).language g.graph =
    complementIn g.alphabet.operating
      (((g.acceptor n).automaton.turned (inversions n later)).language g.graph)

/-- What holds after some calls. -/
structure Remembers (calls : List Call) (g : Generator) : Prop where
  caching : g.complementCaching = true
  settled : ∀ h < g.acceptors.size, (g.acceptor h).Settled g.graph
  total : ∀ h < g.acceptors.size, (g.acceptor h).automaton.deterministic = true →
    (g.acceptor h).automaton.TotalOver g.graph g.alphabet.operating
  asked : ∀ n, .complement n ∈ calls → ∃ r, g.complements.get? n = some r
  entry : ∀ n r, g.complements.get? n = some r →
    .complement n ∈ calls ∧ g.Entry n r (since n calls)

variable {calls : List Call} {c : Call} {n r : Handle} {later : List Call}

/-- The language of an old automaton, inversions undone. -/
theorem Turns.language (ht : g.Turns c g') (hsettled : (g.acceptor n).Settled g.graph)
    (hn : n < g.acceptors.size) (k : Nat) :
    ((g'.acceptor n).automaton.turned (k + inversions n [c])).language g'.graph =
      ((g.acceptor n).automaton.turned k).language g.graph := by
  rw [ht.automaton n hn, Automaton.turned_turned]
  refine Automaton.language_of_grows ht.graph ?_
  rw [Automaton.start_turned]
  exact hsettled.start

theorem Turns.total (ht : g.Turns c g') (hsettled : (g.acceptor n).Settled g.graph)
    (hn : n < g.acceptors.size)
    (htotal : (g.acceptor n).automaton.deterministic = true →
      (g.acceptor n).automaton.TotalOver g.graph g.alphabet.operating)
    (hdet : (g'.acceptor n).automaton.deterministic = true) :
    (g'.acceptor n).automaton.TotalOver g'.graph g'.alphabet.operating := by
  rw [ht.automaton n hn] at hdet ⊢
  rw [Automaton.deterministic_turned] at hdet
  rw [ht.alphabet]
  exact ((htotal hdet).grow ht.graph hsettled.start).turned _

/-- An entry goes on saying what it said. -/
theorem Entry.turns (he : g.Entry n r later) (ht : g.Turns c g')
    (hsettled : ∀ h < g.acceptors.size, (g.acceptor h).Settled g.graph) :
    g'.Entry n r (later ++ [c]) where
  key := he.key.trans_le ht.size
  value := he.value.trans_le ht.size
  deterministic := by
    rw [ht.automaton r he.value, Automaton.deterministic_turned]
    exact he.deterministic
  language := by
    rw [inversions_append, inversions_append, ht.language (hsettled r he.value) he.value,
      ht.language (hsettled n he.key) he.key, ht.alphabet]
    exact he.language

/-- An entry is handed out as it is. -/
theorem complement_of_known (hcaching : g.complementCaching = true)
    (hget : g.complements.get? n = some r) :
    g.complement n =
      (g.report (.complementKnown (g.graph.id (g.acceptor n).automaton.start)), r) := by
  rw [complement, if_pos hcaching, hget]

theorem Remembers.not_mem (hr : Remembers calls g) (hget : g.complements.get? n = none) :
    .complement n ∉ calls := by
  intro hasked
  obtain ⟨r, hr⟩ := hr.asked n hasked
  cases hget.symm.trans hr

/-! ### One call -/

/-- A call that makes nothing and remembers nothing new. -/
theorem Remembers.same (hr : Remembers calls g) (ht : g.Turns c g')
    (hsize : g'.acceptors.size = g.acceptors.size)
    (hsettled : ∀ h < g.acceptors.size, (g'.acceptor h).Settled g'.graph)
    (hcaching : g'.complementCaching = g.complementCaching)
    (hcomplements : g'.complements = g.complements)
    (hknown : ∀ n, c = .complement n → ∃ r, g.complements.get? n = some r) :
    Remembers (calls ++ [c]) g' where
  caching := hcaching.trans hr.caching
  settled := by
    rw [hsize]
    exact hsettled
  total := by
    rw [hsize]
    exact fun h hh hdet => ht.total (hr.settled h hh) hh (hr.total h hh) hdet
  asked := by
    intro n hn
    rw [hcomplements]
    rcases List.mem_append.1 hn with hn | hn
    · exact hr.asked n hn
    · exact hknown n (List.mem_singleton.1 hn).symm
  entry := by
    intro n r hget
    rw [hcomplements] at hget
    obtain ⟨hn, he⟩ := hr.entry n r hget
    refine ⟨List.mem_append_left _ hn, ?_⟩
    rw [since_append_of_mem hn]
    exact he.turns ht hr.settled

/-- The call changes one automaton at most. -/
theorem Remembers.set (hr : Remembers calls g) {x : Acceptor} {h : Handle}
    (hh : h < g.acceptors.size) (hx : x.Settled g.graph)
    (hc : ∀ n, c ≠ .complement n)
    (hsame : x.automaton = (g.acceptor h).automaton.turned (inversions h [c]))
    (hothers : ∀ i, i ≠ h → inversions i [c] = 0) :
    Remembers (calls ++ [c]) (g.set h x) := by
  have hsize : (g.set h x).acceptors.size = g.acceptors.size := Array.size_setIfInBounds
  refine hr.same ⟨rfl, hsize.ge, .refl _, fun i _ => ?_⟩ hsize (fun i hi => ?_) rfl rfl
    fun n hn => absurd hn (hc n)
  · rw [acceptor_set x hh]
    split
    · subst_vars
      exact hsame
    · rename_i hne
      rw [hothers i hne]
      rfl
  · rw [acceptor_set x hh]
    split
    · exact hx
    · exact hr.settled i hi

/-- One more automaton, which is the complement of another one and remembered as such. -/
structure AddsComplement (g : Generator) (n : Handle) (g' : Generator) (d : Automaton) : Prop where
  alphabet : g'.alphabet = g.alphabet
  caching : g'.complementCaching = g.complementCaching
  size : g'.acceptors.size = g.acceptors.size + 1
  graph : g.graph.Grows g'.graph
  old : ∀ h < g.acceptors.size, g'.acceptor h = g.acceptor h
  new : g'.acceptor g.acceptors.size = .ofAutomaton d
  start : d.start < g'.graph.size
  deterministic : d.deterministic = true
  total : d.TotalOver g'.graph g.alphabet.operating
  language : d.language g'.graph =
    complementIn g.alphabet.operating ((g.acceptor n).automaton.language g.graph)
  complements : ∀ m, g'.complements.get? m =
    if m = n then some g.acceptors.size else g.complements.get? m

/-- The call asks for a complement that is not remembered yet. -/
theorem Remembers.addsComplement (hr : Remembers calls g) (hn : n < g.acceptors.size)
    (hget : g.complements.get? n = none) :
    ∃ g' d, g.complement n = (g', g.acceptors.size) ∧ g.AddsComplement n g' d := by
  have heq : g.complement n = ({ (g.complementOver g.alphabet n).1 with
      complements := g.complements.put n g.acceptors.size }, g.acceptors.size) := by
    rw [complement, if_pos hr.caching, hget]
    rfl
  obtain ⟨d, hd, hdet, htotal, hlanguage⟩ := complementOver_spec g n g.alphabet (hr.total n hn)
  have hmade : (g.builder.complement g.alphabet.operating (g.acceptor n).automaton).2 = d :=
    congrArg Acceptor.automaton ((acceptor_keep _ _).symm.trans hd)
  have hstart : d.start < (g.complementOver g.alphabet n).1.graph.size := by
    rw [← hmade]
    exact Builder.start_complement_lt fun _ => (hr.settled n hn).start
  refine ⟨_, d, heq, ⟨rfl, rfl, ?_, ?_, fun h hh => ?_, hd, hstart, hdet, htotal, hlanguage,
    fun m => Table.get?_put _ _ _ _⟩⟩
  · exact Array.size_push _
  · exact Builder.grows_complement _ _ _
  · exact acceptor_keep_of_lt (g := { g with builder := (g.builder.complement _ _).1 }) _ hh

theorem AddsComplement.turns {d : Automaton} (hd : g.AddsComplement n g' d) :
    g.Turns (.complement n) g' where
  alphabet := hd.alphabet
  size := by rw [hd.size]; exact Nat.le_succ _
  graph := hd.graph
  automaton h hh := by
    rw [hd.old h hh]
    rfl

/-- Neither of the two automata of a new entry has been inverted since. -/
theorem AddsComplement.entry {d : Automaton} (hd : g.AddsComplement n g' d)
    (hsettled : (g.acceptor n).Settled g.graph) (hn : n < g.acceptors.size) :
    g'.Entry n g.acceptors.size [] where
  key := by rw [hd.size]; exact hn.trans (Nat.lt_succ_self _)
  value := by rw [hd.size]; exact Nat.lt_succ_self _
  deterministic := by
    rw [hd.new]
    exact hd.deterministic
  language := by
    have hlanguage : (g'.acceptor n).automaton.language g'.graph =
        (g.acceptor n).automaton.language g.graph := by
      rw [hd.old n hn]
      exact Automaton.language_of_grows hd.graph hsettled.start
    rw [hd.new, hd.alphabet]
    show d.language g'.graph =
      complementIn g.alphabet.operating ((g'.acceptor n).automaton.language g'.graph)
    rw [hd.language, hlanguage]

theorem Remembers.made (hr : Remembers calls g) (hn : n < g.acceptors.size)
    (hget : g.complements.get? n = none) {d : Automaton} (hd : g.AddsComplement n g' d) :
    Remembers (calls ++ [.complement n]) g' := by
  have hcases : ∀ h < g'.acceptors.size, h < g.acceptors.size ∨ h = g.acceptors.size := by
    intro h hh
    rw [hd.size] at hh
    exact Nat.lt_succ_iff_lt_or_eq.1 hh
  refine ⟨hd.caching.trans hr.caching, fun h hh => ?_, fun h hh hdet => ?_, fun m hm => ?_,
    fun m r hm => ?_⟩
  · rcases hcases h hh with hh | rfl
    · rw [hd.old h hh]
      exact (hr.settled h hh).grow hd.graph
    · rw [hd.new]
      exact Acceptor.settled_ofAutomaton hd.start
  · rcases hcases h hh with hh | rfl
    · exact hd.turns.total (hr.settled h hh) hh (hr.total h hh) hdet
    · rw [hd.new, hd.alphabet]
      exact hd.total
  · rw [hd.complements]
    split
    · exact ⟨_, rfl⟩
    · rename_i hne
      rcases List.mem_append.1 hm with hm | hm
      · exact hr.asked m hm
      · exact absurd (Call.complement.inj (List.mem_singleton.1 hm)) hne
  · rw [hd.complements] at hm
    split at hm
    · rename_i heq
      cases hm
      rw [heq, since_concat_of_not_mem (hr.not_mem hget)]
      exact ⟨List.mem_append_right _ (List.mem_singleton_self _),
        hd.entry (hr.settled n hn) hn⟩
    · obtain ⟨hasked, he⟩ := hr.entry m r hm
      refine ⟨List.mem_append_left _ hasked, ?_⟩
      rw [since_append_of_mem hasked]
      exact he.turns hd.turns hr.settled

/-- One call. -/
theorem Remembers.call (hr : Remembers calls g) (hc : c.handle < g.acceptors.size) :
    Remembers (calls ++ [c]) (g.call c) := by
  have hnever : ∀ h, (∀ i, c ≠ .invert i) → inversions h [c] = 0 := fun h hne =>
    List.count_eq_zero.2 fun hmem => hne h (List.mem_singleton.1 hmem).symm
  cases c with
  | complement n =>
    cases hget : g.complements.get? n with
    | some r =>
      rw [Generator.call, complement_of_known hr.caching hget]
      refine hr.same ⟨rfl, le_refl _, .refl _, fun h _ => ?_⟩ rfl hr.settled rfl rfl fun m hm => ?_
      · rw [hnever h (fun _ => nofun)]
        rfl
      · cases hm
        exact ⟨r, hget⟩
    | none =>
      obtain ⟨g', d, heq, hd⟩ := hr.addsComplement (n := n) hc hget
      rw [Generator.call, heq]
      exact hr.made hc hget hd
  | accepts h w =>
    refine hr.set hc ((hr.settled h hc).accepts w) (fun _ => nofun) ?_
      fun i _ => hnever i (fun _ => nofun)
    rw [hnever h (fun _ => nofun)]
    exact (Acceptor.accepts_spec (hr.settled h hc).faithful w).2.2
  | invert h =>
    refine hr.set hc ⟨(hr.settled h hc).start, (hr.settled h hc).faithful,
      (hr.settled h hc).inside⟩ (fun _ => nofun) ?_ fun i hi => ?_
    · rw [inversions, List.count_singleton_self]
      rfl
    · exact List.count_eq_zero.2 fun hmem => hi (Call.invert.inj (List.mem_singleton.1 hmem))
  | enableCaching h =>
    refine hr.set hc ((hr.settled h hc).withCaching true) (fun _ => nofun) ?_
      fun i _ => hnever i (fun _ => nofun)
    rw [hnever h (fun _ => nofun)]
    rfl
  | disableCaching h =>
    refine hr.set hc ((hr.settled h hc).withCaching false) (fun _ => nofun) ?_
      fun i _ => hnever i (fun _ => nofun)
    rw [hnever h (fun _ => nofun)]
    rfl

/-! ### Any number of calls -/

theorem Remembers.after (hr : Remembers calls g) {more : List Call} (hmore : g.Possible more) :
    Remembers (calls ++ more) (g.after more) := by
  induction more generalizing calls g with
  | nil =>
    rw [List.append_nil]
    exact hr
  | cons c more ih =>
    rw [List.append_cons]
    exact ih (hr.call hmore.1) hmore.2

/-- A generator with no complements yet, and automata that are not marked as deterministic. -/
theorem remembers_nil (hcaching : g.complementCaching = true) (hfresh : g.complements = [])
    (hsettled : ∀ h < g.acceptors.size, (g.acceptor h).Settled g.graph)
    (hdet : ∀ h < g.acceptors.size, (g.acceptor h).automaton.deterministic = false) :
    Remembers [] g where
  caching := hcaching
  settled := hsettled
  total h hh hh' := absurd ((hdet h hh).symm.trans hh') Bool.false_ne_true
  asked := nofun
  entry n r hget := by
    rw [hfresh] at hget
    cases hget

/-! ### Answers -/

/-- What the complement in an entry accepts now. -/
theorem Entry.mem_language (he : g.Entry n r later)
    (htotal : (g.acceptor r).automaton.TotalOver g.graph g.alphabet.operating) {w : List Symbol} :
    w ∈ (g.acceptor r).automaton.language g.graph ↔ Over g.alphabet.operating w ∧
      (w ∈ ((g.acceptor n).automaton.turned (inversions n later)).language g.graph ↔
        Odd (inversions r later)) := by
  by_cases hw : Over g.alphabet.operating w
  · have hturned := htotal.mem_turned (inversions r later) hw
    rw [he.language, mem_complementIn, and_iff_right hw] at hturned
    rw [and_iff_right hw, ← Nat.not_even_iff_odd]
    tauto
  · exact iff_of_false (fun h => hw (htotal.over h)) fun h => hw h.1

/-- What the answer to a call for a complement accepts. -/
theorem Remembers.accepts_complement (hr : Remembers calls g) (hn : n < g.acceptors.size)
    (w : List Symbol) :
    ((g.complement n).1.accepts (g.complement n).2 w).2 = true ↔ Over g.alphabet.operating w ∧
      (w ∈ ((g.acceptor n).automaton.turned (inversions n (since n calls))).language g.graph ↔
        Odd (inversions (g.complement n).2 (since n calls))) := by
  cases hget : g.complements.get? n with
  | some r =>
    obtain ⟨-, he⟩ := hr.entry n r hget
    rw [complement_of_known hr.caching hget]
    exact (accepts_iff_of_faithful (hr.settled r he.value).faithful).trans
      (he.mem_language (hr.total r he.value he.deterministic))
  | none =>
    obtain ⟨g', d, heq, hd⟩ := hr.addsComplement hn hget
    rw [heq, since_of_not_mem (hr.not_mem hget)]
    show (g'.accepts g.acceptors.size w).2 = true ↔ Over g.alphabet.operating w ∧
      (w ∈ (g.acceptor n).automaton.language g.graph ↔ Odd 0)
    rw [accepts_iff_of_ofAutomaton hd.new, hd.language, mem_complementIn,
      iff_false_right (by decide : ¬ Odd 0)]

/-- A generator that has not been asked for complements yet, and whose automata are not marked as
deterministic, gets some calls, and then one for the complement of an automaton.  If that automaton
has been inverted `i` times since its complement was made, and the complement `j` times, then the
answer accepts what the automaton before its last `i` inversions rejects, or accepts if `j` is odd.
So the answer is right if `i` and `j` are even, and wrong if only `j` is odd.  If the automaton is
deterministic then the answer is right just if `i + j` is even. -/
theorem complement_after (g : Generator) (hcaching : g.complementCaching = true)
    (hfresh : g.complements = [])
    (hsettled : ∀ h < g.acceptors.size, (g.acceptor h).Settled g.graph)
    (hdet : ∀ h < g.acceptors.size, (g.acceptor h).automaton.deterministic = false)
    (calls : List Call) (hcalls : g.Possible calls) (n : Handle)
    (hn : n < (g.after calls).acceptors.size) :
    let now := g.after calls
    let answer := now.complement n
    let a := (now.acceptor n).automaton
    let i := inversions n (since n calls)
    let j := inversions answer.2 (since n calls)
    let right := ∀ w, (answer.1.accepts answer.2 w).2 = true ↔
      Over now.alphabet.operating w ∧ (now.accepts n w).2 = false
    (∀ w, (answer.1.accepts answer.2 w).2 = true ↔ Over now.alphabet.operating w ∧
        (a.turned i).accepts now.graph w = decide (Odd j)) ∧
      (Even i → (right ↔ Even j)) ∧ (a.deterministic = true → (right ↔ Even (i + j))) := by
  intro now answer a i j right
  have hr : Remembers calls now := (remembers_nil hcaching hfresh hsettled hdet).after hcalls
  have hanswer := hr.accepts_complement hn
  have hrejects : ∀ w, (now.accepts n w).2 = false ↔ w ∉ a.language now.graph := by
    intro w
    rw [← Bool.not_eq_true, accepts_iff_of_faithful (hr.settled n hn).faithful]
  have hright : right ↔ ∀ w, Over now.alphabet.operating w →
      ((w ∈ (a.turned i).language now.graph ↔ Odd j) ↔ w ∉ a.language now.graph) := by
    refine forall_congr' fun w => ?_
    rw [hanswer, hrejects]
    exact and_congr_right_iff
  refine ⟨fun w => ?_, fun hi => ?_, fun ha => ?_⟩
  · rw [hanswer, Bool.eq_iff_iff, Automaton.accepts_iff, decide_eq_true_iff]
  · have hword : ∀ w, ((w ∈ a.language now.graph ↔ Odd j) ↔ w ∉ a.language now.graph) ↔
        Even j := by
      intro w
      rw [← Nat.not_odd_iff_even]
      tauto
    rw [hright, Automaton.turned_of_even hi]
    exact ⟨fun h => (hword []).1 (h [] nofun), fun hj w _ => (hword w).2 hj⟩
  · have htotal : a.TotalOver now.graph now.alphabet.operating := hr.total n hn ha
    have hword : ∀ w, Over now.alphabet.operating w →
        (((w ∈ (a.turned i).language now.graph ↔ Odd j) ↔ w ∉ a.language now.graph) ↔
          Even (i + j)) := by
      intro w hw
      rw [htotal.mem_turned i hw, Nat.even_add, ← Nat.not_odd_iff_even (n := j)]
      tauto
    rw [hright]
    exact ⟨fun h => (hword [] nofun).1 (h [] nofun), fun hij w hw => (hword w hw).2 hij⟩

/-- The complement of the one symbol is inverted after its own complement has been made, and then
the complement that is remembered for it is wrong. -/
theorem complement_after_inversion :
    oneSymbol.complementCaching = true ∧ oneSymbol.complements = [] ∧
      (∀ h < oneSymbol.acceptors.size, (oneSymbol.acceptor h).Settled oneSymbol.graph) ∧
      (∀ h < oneSymbol.acceptors.size, (oneSymbol.acceptor h).automaton.deterministic = false) ∧
      oneSymbol.Possible [.complement 0, .complement 1, .invert 1] ∧
      1 < (oneSymbol.after [.complement 0, .complement 1, .invert 1]).acceptors.size ∧
      let now := oneSymbol.after [.complement 0, .complement 1, .invert 1]
      ¬ ∀ w, ((now.complement 1).1.accepts (now.complement 1).2 w).2 = true ↔
        Over now.alphabet.operating w ∧ (now.accepts 1 w).2 = false := by
  set calls : List Call := [.complement 0, .complement 1, .invert 1] with hcallsdef
  have hsettled : ∀ h < oneSymbol.acceptors.size,
      (oneSymbol.acceptor h).Settled oneSymbol.graph := by
    intro h hh
    obtain rfl : h = 0 := Nat.lt_one_iff.1 hh
    exact Acceptor.settled_ofAutomaton (by decide)
  have hdet : ∀ h < oneSymbol.acceptors.size,
      (oneSymbol.acceptor h).automaton.deterministic = false := by
    decide
  have hr₀ : Remembers [] oneSymbol := remembers_nil rfl rfl hsettled hdet
  obtain ⟨g₁, d₁, heq₁, hd₁⟩ := hr₀.addsComplement (n := 0) (by decide) rfl
  have hr₁ : Remembers [.complement 0] g₁ := hr₀.made (by decide) rfl hd₁
  have hsize₁ : g₁.acceptors.size = 2 := hd₁.size
  have hknown₁ : g₁.complements.get? 1 = none := (hd₁.complements 1).trans (if_neg (by decide))
  obtain ⟨g₂, d₂, heq₂, hd₂⟩ := hr₁.addsComplement (n := 1) (by rw [hsize₁]; decide) hknown₁
  have hsize₂ : g₂.acceptors.size = 3 := by rw [hd₂.size, hsize₁]
  have hknown₂ : g₂.complements.get? 1 = some 2 := by
    rw [hd₂.complements, if_pos rfl, hsize₁]
  have hnow : oneSymbol.after calls = g₂.set 1 (g₂.acceptor 1).invert := by
    show (((oneSymbol.complement 0).1.complement 1).1).set 1
      (((oneSymbol.complement 0).1.complement 1).1.acceptor 1).invert = _
    rw [heq₁, heq₂]
  have hcalls : oneSymbol.Possible calls := by
    refine ⟨by decide, ?_, ?_, trivial⟩
    · show 1 < (oneSymbol.complement 0).1.acceptors.size
      rw [heq₁, hsize₁]
      decide
    · show 1 < ((oneSymbol.complement 0).1.complement 1).1.acceptors.size
      rw [heq₁, heq₂, hsize₂]
      decide
  have hn : 1 < (oneSymbol.after calls).acceptors.size := by
    rw [hnow]
    show 1 < (g₂.acceptors.setIfInBounds _ _).size
    rw [Array.size_setIfInBounds, hsize₂]
    decide
  have hdet' : ((oneSymbol.after calls).acceptor 1).automaton.deterministic = true := by
    have hacceptor : g₂.acceptor 1 = .ofAutomaton d₁ :=
      (hd₂.old 1 (by rw [hsize₁]; decide)).trans hd₁.new
    rw [hnow, acceptor_set _ (by rw [hsize₂]; decide), if_pos rfl, hacceptor]
    exact hd₁.deterministic
  have hanswer : ((oneSymbol.after calls).complement 1).2 = 2 := by
    rw [hnow, complement_of_known (g := g₂.set 1 _) (hd₂.caching.trans hr₁.caching) hknown₂]
  obtain ⟨-, -, hright⟩ := complement_after oneSymbol rfl rfl hsettled hdet calls hcalls 1 hn
  refine ⟨rfl, rfl, hsettled, hdet, hcalls, hn, fun hall => ?_⟩
  have heven := (hright hdet').1 hall
  rw [hanswer] at heven
  exact absurd heven (by decide)

end Generator

end RegexAutomata
