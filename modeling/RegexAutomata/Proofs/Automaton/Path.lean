/-
Paths through a graph, and the language of an automaton.

A path spells the symbols of its edges; edges that consume nothing spell nothing.  The
sets of vertices that an automaton keeps track of are the ends of paths:

* `VertexSet.mem_saturate_iff` — saturating a set adds exactly what can be reached from it;
* `Graph.mem_closure` — the closure of a set holds the ends of the paths that spell nothing;
* `Graph.mem_frontier` — reading symbols one after the other leads to the ends of the paths
  that spell them;
* `Automaton.accepts_iff` — an automaton accepts exactly the members of its language, the
  sequences that some path from its start to a final vertex spells.

The early exit of `acceptsFrom` makes no difference, since no edge leaves the empty set
(`Automaton.acceptsFrom_eq`).
-/
import Mathlib.Computability.Language
import Mathlib.Logic.Relation
import RegexAutomata.Automaton.Basic

namespace RegexAutomata

/-! ### Saturation -/

namespace VertexSet

variable {bound : Nat} {next : Nat → List Nat} {below : ∀ v, ∀ w ∈ next v, w < bound}

theorem subset_saturate {seen frontier : VertexSet} {v : Nat} (h : v ∈ seen) :
    v ∈ saturate bound next below seen frontier := by
  fun_induction saturate bound next below seen frontier with
  | case1 seen frontier fresh hx => exact h
  | case2 seen frontier fresh hx ih => exact ih (mem_union.2 (.inl h))

/-- The vertices outside the frontier have been dealt with before, so in the end all
successors are there. -/
theorem saturate_closed {seen frontier : VertexSet}
    (hseen : ∀ v ∈ seen, v ∉ frontier → ∀ w ∈ next v, w ∈ seen) :
    ∀ v ∈ saturate bound next below seen frontier, ∀ w ∈ next v,
      w ∈ saturate bound next below seen frontier := by
  fun_induction saturate bound next below seen frontier with
  | case1 seen frontier fresh hx =>
    intro v hv w hw
    by_cases hf : v ∈ frontier
    · -- nothing new was found, so the successors of the frontier have been seen
      by_contra hn
      exact isEmpty_iff.1 hx w (mem_diff.2 ⟨mem_image.2 ⟨v, hf, hw⟩, hn⟩)
    · exact hseen v hv hf w hw
  | case2 seen frontier fresh hx ih =>
    refine ih fun v hv hf w hw => ?_
    have hv : v ∈ seen := (mem_union.1 hv).resolve_right hf
    by_cases hs : w ∈ seen
    · exact mem_union.2 (.inl hs)
    · by_cases hvf : v ∈ frontier
      · exact mem_union.2 (.inr (mem_diff.2 ⟨mem_image.2 ⟨v, hvf, hw⟩, hs⟩))
      · exact absurd (hseen v hv hvf w hw) hs

theorem exists_of_mem_saturate {seen frontier : VertexSet} (hsub : ∀ v ∈ frontier, v ∈ seen)
    {v : Nat} (h : v ∈ saturate bound next below seen frontier) :
    ∃ u ∈ seen, Relation.ReflTransGen (fun a b => b ∈ next a) u v := by
  fun_induction saturate bound next below seen frontier with
  | case1 seen frontier fresh hx => exact ⟨v, h, .refl⟩
  | case2 seen frontier fresh hx ih =>
    obtain ⟨u, hu, hr⟩ := ih (fun v hv => mem_union.2 (.inr hv)) h
    rcases mem_union.1 hu with hu | hu
    · exact ⟨u, hu, hr⟩
    · obtain ⟨t, ht, htu⟩ := mem_image.1 (mem_diff.1 hu).1
      exact ⟨t, hsub t ht, .head htu hr⟩

/-- Saturating a set adds exactly what can be reached from it. -/
theorem mem_saturate_iff {s : VertexSet} {v : Nat} :
    v ∈ saturate bound next below s s ↔
      ∃ u ∈ s, Relation.ReflTransGen (fun a b => b ∈ next a) u v := by
  constructor
  · exact exists_of_mem_saturate fun _ h => h
  · rintro ⟨u, hu, hr⟩
    induction hr with
    | refl => exact subset_saturate hu
    | tail _ hbc ih => exact saturate_closed (fun v hv hn => absurd hv hn) _ ih _ hbc

end VertexSet

/-! ### Paths -/

namespace Graph

/-- There is a path from one vertex to another that spells a sequence of symbols. -/
inductive Path (g : Graph) : Nat → List Symbol → Nat → Prop
  | nil (v : Nat) : Path g v [] v
  | eps {u v x : Nat} {w : List Symbol} : v ∈ (g.node u).eps → Path g v w x → Path g u w x
  | read {u v x : Nat} {s : Symbol} {w : List Symbol} :
    v ∈ (g.node u).step s → Path g v w x → Path g u (s :: w) x

variable {g : Graph}

theorem Path.append {u v x : Nat} {w y : List Symbol} (h : g.Path u w v) (k : g.Path v y x) :
    g.Path u (w ++ y) x := by
  induction h with
  | nil v => exact k
  | eps he _ ih => exact .eps he (ih k)
  | read hr _ ih => exact .read hr (ih k)

theorem path_nil_iff {u v : Nat} :
    g.Path u [] v ↔ Relation.ReflTransGen (fun a b => b ∈ (g.node a).eps) u v := by
  constructor
  · intro h
    generalize hw : ([] : List Symbol) = w at h
    induction h with
    | nil v => exact .refl
    | eps he _ ih => exact .head he (ih hw)
    | read => cases hw
  · intro h
    induction h using Relation.ReflTransGen.head_induction_on with
    | refl => exact .nil _
    | head he _ ih => exact .eps he ih

theorem path_cons_iff {u x : Nat} {s : Symbol} {w : List Symbol} :
    g.Path u (s :: w) x ↔
      ∃ t v, g.Path u [] t ∧ v ∈ (g.node t).step s ∧ g.Path v w x := by
  constructor
  · intro h
    -- the induction runs over paths that spell any sequence
    generalize hw : s :: w = y at h
    induction h with
    | nil v => cases hw
    | eps he _ ih =>
      obtain ⟨t, v, ht, hv, hp⟩ := ih hw
      exact ⟨t, v, .eps he ht, hv, hp⟩
    | read hr hp =>
      cases hw
      exact ⟨_, _, .nil _, hr, hp⟩
  · rintro ⟨t, v, ht, hv, hp⟩
    exact ht.append (.read hv hp)

theorem mem_closure {s : VertexSet} {v : Nat} :
    v ∈ g.closure s ↔ ∃ u ∈ s, g.Path u [] v := by
  simp only [closure, VertexSet.mem_saturate_iff, path_nil_iff]

theorem mem_advance {src : VertexSet} {s : Symbol} {v : Nat} :
    v ∈ g.advance src s ↔ ∃ u ∈ src, ∃ t ∈ (g.node u).step s, g.Path t [] v := by
  simp only [advance, mem_closure, step, VertexSet.mem_image]
  constructor
  · rintro ⟨t, ⟨u, hu, ht⟩, hp⟩
    exact ⟨u, hu, t, ht, hp⟩
  · rintro ⟨u, hu, t, ht, hp⟩
    exact ⟨t, ⟨u, hu, ht⟩, hp⟩

/-- Where reading symbols one after the other leads to from a set of vertices. -/
def frontier (g : Graph) (src : VertexSet) (w : List Symbol) : VertexSet :=
  w.foldl g.advance src

/-- A set that holds whatever can be reached from it without consuming anything. -/
def Saturated (g : Graph) (src : VertexSet) : Prop :=
  ∀ u ∈ src, ∀ v, g.Path u [] v → v ∈ src

theorem saturated_closure (s : VertexSet) : g.Saturated (g.closure s) := by
  intro u hu v hp
  obtain ⟨t, ht, htu⟩ := mem_closure.1 hu
  exact mem_closure.2 ⟨t, ht, htu.append hp⟩

theorem saturated_advance (src : VertexSet) (s : Symbol) : g.Saturated (g.advance src s) :=
  saturated_closure _

/-- Reading symbols leads to the ends of the paths that spell them. -/
theorem mem_frontier {src : VertexSet} (hsrc : g.Saturated src) {w : List Symbol} {v : Nat} :
    v ∈ g.frontier src w ↔ ∃ u ∈ src, g.Path u w v := by
  induction w generalizing src with
  | nil => exact ⟨fun h => ⟨v, h, .nil v⟩, fun ⟨u, hu, hp⟩ => hsrc u hu v hp⟩
  | cons s w ih =>
    rw [show g.frontier src (s :: w) = g.frontier (g.advance src s) w from rfl,
      ih (saturated_advance src s)]
    constructor
    · rintro ⟨t, ht, hp⟩
      obtain ⟨u, hu, r, hr, hrt⟩ := mem_advance.1 ht
      exact ⟨u, hu, .read hr (hrt.append hp)⟩
    · rintro ⟨u, hu, hp⟩
      obtain ⟨t, r, hut, hr, hp⟩ := path_cons_iff.1 hp
      exact ⟨r, mem_advance.2 ⟨t, hsrc u hu t hut, r, hr, .nil r⟩, hp⟩

theorem frontier_of_isEmpty {src : VertexSet} (h : src.isEmpty = true) (w : List Symbol) :
    (g.frontier src w).isEmpty = true := by
  induction w generalizing src with
  | nil => exact h
  | cons s w ih =>
    refine ih (VertexSet.isEmpty_iff.2 fun v hv => ?_)
    obtain ⟨u, hu, _⟩ := mem_advance.1 hv
    exact VertexSet.isEmpty_iff.1 h u hu

end Graph

/-! ### The language of an automaton -/

namespace Automaton

/-- Does the automaton accept at this vertex? -/
def Final (a : Automaton) (v : Nat) : Prop := v ∈ a.accepting ↔ a.inverted = false

/-- What the paths from the start to a final vertex spell. -/
def language (a : Automaton) (g : Graph) : Language Symbol :=
  {w | ∃ v, g.Path a.start w v ∧ a.Final v}

variable {a : Automaton} {g : Graph}

theorem mem_language {w : List Symbol} :
    w ∈ a.language g ↔ ∃ v, g.Path a.start w v ∧ a.Final v := Iff.rfl

theorem isFinal_iff {s : VertexSet} : a.isFinal s = true ↔ ∃ v ∈ s, a.Final v := by
  simp only [isFinal, List.any_eq_true, VertexSet.mem_def (s := s), Final]
  refine exists_congr fun v => and_congr_right fun _ => ?_
  cases a.inverted <;> simp

theorem acceptsFrom_eq (src : VertexSet) (w : List Symbol) :
    a.acceptsFrom g src w = a.isFinal (g.frontier src w) := by
  induction w generalizing src with
  | nil => rfl
  | cons s w ih =>
    rw [show g.frontier src (s :: w) = g.frontier (g.advance src s) w from rfl]
    by_cases he : (g.advance src s).isEmpty = true
    · -- the early exit: nothing leads out of the empty set
      have hf : ¬ a.isFinal (g.frontier (g.advance src s) w) = true := by
        rw [isFinal_iff]
        rintro ⟨v, hv, _⟩
        exact VertexSet.isEmpty_iff.1 (Graph.frontier_of_isEmpty he w) v hv
      simp only [acceptsFrom, if_pos he]
      exact (Bool.eq_false_iff.2 hf).symm
    · simp only [acceptsFrom, if_neg he]
      exact ih _

theorem mem_initial {v : Nat} : v ∈ a.initial g ↔ g.Path a.start [] v := by
  simp [initial, Graph.mem_closure]

theorem mem_frontier_initial {w : List Symbol} {v : Nat} :
    v ∈ g.frontier (a.initial g) w ↔ g.Path a.start w v := by
  have hsat : g.Saturated (a.initial g) := Graph.saturated_closure _
  rw [Graph.mem_frontier hsat]
  constructor
  · rintro ⟨u, hu, hp⟩
    exact (mem_initial.1 hu).append hp
  · intro hp
    exact ⟨a.start, mem_initial.2 (.nil _), hp⟩

/-- An automaton accepts exactly the members of its language. -/
theorem accepts_iff {w : List Symbol} : a.accepts g w = true ↔ w ∈ a.language g := by
  rw [accepts, acceptsFrom_eq, isFinal_iff, mem_language]
  simp only [mem_frontier_initial]

end Automaton

end RegexAutomata
