/-
The passes of the search for a closure.

The closure of a set is found in passes.  A pass takes a snapshot of what has been found and follows
the edges that consume nothing, but only from the vertices that are not in the snapshot of the pass
before.  The search ends after a pass that has not made the set larger than its snapshot.

* `Graph.ClosureSearch.closureFrom_pass` — one pass is one round of `Graph.closure`, and comparing the
  two sizes is as good as looking for a new vertex;
* `Graph.ClosureSearch.size_le_found` — each pass that is not the last one finds a vertex;
* `Graph.ClosureSearch.mem_followed_iff` — a vertex is dealt with in the pass after the one that finds it;
* `Graph.closure_passes` — the search ends, and what it returns is what can be reached.
-/
import Mathlib.Data.List.Perm.Subperm
import Mathlib.Logic.Function.Iterate
import RegexAutomata.Proofs.Automaton.Path

namespace RegexAutomata

/-! ### Sizes of sets -/

namespace VertexSet

variable {s t : VertexSet}

theorem nodup_toList (s : VertexSet) : s.toList.Nodup := s.sorted.imp Nat.ne_of_lt

theorem size_le_of_subset (h : ∀ v ∈ s, v ∈ t) : s.size ≤ t.size :=
  (s.nodup_toList.subperm h).length_le

/-- A larger set has more members. -/
theorem size_lt_of_subset (h : ∀ v ∈ s, v ∈ t) {u : Nat} (hu : u ∈ t) (hs : u ∉ s) :
    s.size < t.size := by
  have hinsert : (u :: s.toList).Nodup := List.nodup_cons.2 ⟨hs, s.nodup_toList⟩
  have hsub : u :: s.toList ⊆ t.toList := by
    intro v hv
    rcases List.mem_cons.1 hv with rfl | hv
    · exact hu
    · exact h v hv
  exact (hinsert.subperm hsub).length_le

end VertexSet

namespace Graph

/-! ### Passes -/

/-- The state of the search after a pass. -/
structure ClosureSearch where
  /-- The snapshot of the pass before. -/
  previous : VertexSet
  /-- What had been found when the pass began. -/
  snapshot : VertexSet
  /-- What has been found. -/
  found : VertexSet

namespace ClosureSearch

/-- The search before its first pass: there are no snapshots yet. -/
def start (s : VertexSet) : ClosureSearch := ⟨.empty, .empty, s⟩

/-- One pass: the edges of the vertices in the new snapshot are followed, unless they were followed
before. -/
def pass (g : Graph) (x : ClosureSearch) : ClosureSearch where
  previous := x.snapshot
  snapshot := x.found
  found := x.found.toList.foldl
    (fun found v => if v ∈ x.snapshot then found else found.union (.ofList (g.node v).eps)) x.found

/-- The pass has found as many vertices as there were when it began, and the search ends. -/
def Ended (x : ClosureSearch) : Prop := x.found.size = x.snapshot.size

instance (x : ClosureSearch) : Decidable x.Ended :=
  inferInstanceAs (Decidable (x.found.size = x.snapshot.size))

/-- The vertices whose edges the pass has followed. -/
def followed (x : ClosureSearch) : VertexSet := x.snapshot.diff x.previous

/-- The search after some passes. -/
def after (g : Graph) (s : VertexSet) (n : Nat) : ClosureSearch := (pass g)^[n] (start s)

variable {g : Graph} {s : VertexSet} {x : ClosureSearch}

theorem after_succ (g : Graph) (s : VertexSet) (n : Nat) :
    after g s (n + 1) = (after g s n).pass g :=
  Function.iterate_succ_apply' ..

theorem mem_foldl_union {skip : VertexSet} {next : Nat → List Nat} {vs : List Nat} {w : Nat} :
    w ∈ vs.foldl (fun found v => if v ∈ skip then found else found.union (.ofList (next v))) s ↔
      w ∈ s ∨ ∃ v ∈ vs, v ∉ skip ∧ w ∈ next v := by
  induction vs generalizing s with
  | nil => simp
  | cons u vs ih =>
    rw [List.foldl_cons, ih]
    by_cases hu : u ∈ skip
    · simp [hu]
    · simp [hu, or_assoc]

/-- A pass adds the ends of the edges that leave the vertices found by the pass before. -/
theorem mem_found_pass {w : Nat} :
    w ∈ (x.pass g).found ↔ w ∈ x.found ∨ ∃ v ∈ x.found, v ∉ x.snapshot ∧ w ∈ (g.node v).eps :=
  mem_foldl_union

theorem ended_pass_iff : (x.pass g).Ended ↔ ∀ w ∈ (x.pass g).found, w ∈ x.found := by
  have hsub : ∀ w ∈ x.found, w ∈ (x.pass g).found := fun w hw => mem_found_pass.2 (.inl hw)
  constructor
  · intro hended w hw
    by_contra hn
    have hlt := VertexSet.size_lt_of_subset hsub hw hn
    exact hlt.ne' hended
  · intro h
    exact le_antisymm (VertexSet.size_le_of_subset h) (VertexSet.size_le_of_subset hsub)

/-! ### The closure -/

theorem lt_size_of_mem_eps (g : Graph) : ∀ v, ∀ w ∈ (g.node v).eps, w < g.size :=
  fun _ _ hw => lt_size_of_mem_targets (Node.mem_targets.2 (.inl hw))

/-- What `Graph.closure` makes of what has been found, where only the vertices outside the snapshot
are still to be dealt with. -/
def closureFrom (g : Graph) (x : ClosureSearch) : VertexSet :=
  VertexSet.saturate g.size (fun v => (g.node v).eps) (lt_size_of_mem_eps g) x.found
    (x.found.diff x.snapshot)

theorem closureFrom_start (g : Graph) (s : VertexSet) : closureFrom g (start s) = g.closure s := by
  have hdiff : s.diff .empty = s := VertexSet.ext fun v => by simp
  show VertexSet.saturate _ _ _ s (s.diff .empty) = VertexSet.saturate _ _ _ s s
  rw [hdiff]

/-- The search goes the way of `Graph.closure`, one pass for each round, and returns its last
snapshot. -/
theorem closureFrom_pass (g : Graph) (x : ClosureSearch) :
    ((x.pass g).Ended → (x.pass g).snapshot = closureFrom g x) ∧
      (¬ (x.pass g).Ended → closureFrom g (x.pass g) = closureFrom g x) := by
  set fresh := ((x.found.diff x.snapshot).image fun v => (g.node v).eps).diff x.found with hfresh
  -- the round looks for these vertices, and the pass adds them
  have hmem : ∀ w, w ∈ fresh ↔ w ∈ (x.pass g).found ∧ w ∉ x.found := by
    intro w
    rw [hfresh, VertexSet.mem_diff, VertexSet.mem_image, mem_found_pass]
    simp only [VertexSet.mem_diff, and_assoc]
    tauto
  have hended : fresh.isEmpty = true ↔ (x.pass g).Ended := by
    rw [VertexSet.isEmpty_iff, ended_pass_iff]
    simp only [hmem]
    exact ⟨fun h w hw => by_contra fun hn => h w ⟨hw, hn⟩, fun h w hw => hw.2 (h w hw.1)⟩
  have hround : closureFrom g x = _ := VertexSet.saturate.eq_1 ..
  constructor
  · intro h
    rw [hround, dif_pos (hended.2 h)]
    rfl
  · intro h
    rw [hround, dif_neg (mt hended.1 h)]
    have hunion : x.found.union fresh = (x.pass g).found := VertexSet.ext fun w => by
      rw [VertexSet.mem_union, hmem]
      have hold : w ∈ x.found → w ∈ (x.pass g).found := fun hw => mem_found_pass.2 (.inl hw)
      tauto
    have hdiff : fresh = (x.pass g).found.diff (x.pass g).snapshot := VertexSet.ext fun w => by
      rw [hmem, VertexSet.mem_diff]
      rfl
    show closureFrom g (x.pass g) = VertexSet.saturate _ _ _ (x.found.union fresh) fresh
    rw [hunion, hdiff]
    rfl

/-! ### All passes -/

theorem closureFrom_after {n : Nat} (h : ∀ m < n, ¬ (after g s (m + 1)).Ended) :
    closureFrom g (after g s n) = g.closure s := by
  induction n with
  | zero => exact closureFrom_start g s
  | succ n ih =>
    have hlast := h n n.lt_succ_self
    rw [after_succ] at hlast ⊢
    rw [(closureFrom_pass g _).2 hlast]
    exact ih fun m hm => h m (hm.trans n.lt_succ_self)

theorem found_subset_closure {n : Nat} (h : ∀ m < n, ¬ (after g s (m + 1)).Ended) {v : Nat}
    (hv : v ∈ (after g s n).found) : v ∈ g.closure s := by
  rw [← closureFrom_after h]
  exact VertexSet.subset_saturate hv

/-- Each pass that is not the last one finds a vertex. -/
theorem size_le_found {n : Nat} (h : ∀ m < n, ¬ (after g s (m + 1)).Ended) :
    n + s.size ≤ (after g s n).found.size := by
  induction n with
  | zero => exact (Nat.zero_add _).le
  | succ n ih =>
    have hbefore := ih fun m hm => h m (hm.trans n.lt_succ_self)
    have hlast := h n n.lt_succ_self
    rw [after_succ] at hlast ⊢
    obtain ⟨w, hw, hn⟩ : ∃ w ∈ ((after g s n).pass g).found, w ∉ (after g s n).found := by
      by_contra hnone
      exact hlast (ended_pass_iff.2 fun w hw => by_contra fun hn => hnone ⟨w, hw, hn⟩)
    have hlt := VertexSet.size_lt_of_subset (fun v hv => mem_found_pass.2 (.inl hv)) hw hn
    omega

/-- Since there are only so many vertices to find, some pass is the last one. -/
theorem exists_last (g : Graph) (s : VertexSet) :
    ∃ n, (after g s (n + 1)).Ended ∧ ∀ m < n, ¬ (after g s (m + 1)).Ended := by
  have hex : ∃ n, (after g s (n + 1)).Ended := by
    by_contra hnone
    have hnever : ∀ n, ∀ m < n, ¬ (after g s (m + 1)).Ended := fun _ m _ h => hnone ⟨m, h⟩
    set n := (g.closure s).size + 1 with hn
    have hmany := size_le_found (hnever n)
    have hfew := VertexSet.size_le_of_subset fun v hv => found_subset_closure (hnever n) hv
    omega
  exact ⟨Nat.find hex, Nat.find_spec hex, fun m hm => Nat.find_min hex hm⟩

theorem found_mono {m n : Nat} (h : m ≤ n) {v : Nat} (hv : v ∈ (after g s m).found) :
    v ∈ (after g s n).found := by
  induction n, h using Nat.le_induction with
  | base => exact hv
  | succ n _ ih =>
    rw [after_succ]
    exact mem_found_pass.2 (.inl ih)

/-- A vertex is dealt with in the pass after the one that finds it. -/
theorem mem_followed_iff {m : Nat} {v : Nat} :
    v ∈ (after g s (m + 1)).followed ↔
      v ∈ (after g s m).found ∧ ∀ k < m, v ∉ (after g s k).found := by
  rw [after_succ]
  show v ∈ (after g s m).found.diff (after g s m).snapshot ↔ _
  rw [VertexSet.mem_diff]
  refine and_congr_right fun _ => ?_
  cases m with
  | zero =>
    have hnot : v ∉ (after g s 0).snapshot := VertexSet.not_mem_empty v
    exact iff_of_true hnot fun k hk => absurd hk (Nat.not_lt_zero k)
  | succ m =>
    rw [after_succ]
    show v ∉ (after g s m).found ↔ _
    constructor
    · intro hn k hk hv
      exact hn (found_mono (Nat.le_of_lt_succ hk) hv)
    · intro h
      exact h m m.lt_succ_self

end ClosureSearch

open ClosureSearch (after)

/-- The search for a closure ends, after at most one pass for each vertex that it adds and one more.
It returns what `Graph.closure` computes, the vertices that can be reached from the set by edges that
consume nothing, and it follows the edges of each of them in exactly one of its passes. -/
theorem closure_passes (g : Graph) (s : VertexSet) :
    ∃ n, (after g s (n + 1)).Ended ∧ (∀ m < n, ¬ (after g s (m + 1)).Ended) ∧
      n + s.size ≤ (g.closure s).size ∧
      (after g s (n + 1)).snapshot = g.closure s ∧
      (∀ v, v ∈ g.closure s ↔
        ∃ u ∈ s, Relation.ReflTransGen (fun x y => y ∈ (g.node x).eps) u v) ∧
      (∀ m ≤ n, ∀ v ∈ (after g s (m + 1)).followed, v ∈ g.closure s) ∧
      ∀ v ∈ g.closure s, ∃! m, m ≤ n ∧ v ∈ (after g s (m + 1)).followed := by
  obtain ⟨n, hended, hfirst⟩ := ClosureSearch.exists_last g s
  have hsub : ∀ m ≤ n, ∀ v ∈ (after g s m).found, v ∈ g.closure s := fun m hm v hv =>
    ClosureSearch.found_subset_closure (fun k hk => hfirst k (hk.trans_le hm)) hv
  have hsnapshot : (after g s (n + 1)).snapshot = g.closure s := by
    rw [ClosureSearch.after_succ] at hended ⊢
    rw [(ClosureSearch.closureFrom_pass g _).1 hended, ClosureSearch.closureFrom_after hfirst]
  refine ⟨n, hended, hfirst, ?_, hsnapshot, fun v => VertexSet.mem_saturate_iff, ?_, ?_⟩
  · have hfound := ClosureSearch.size_le_found hfirst
    have hsize := VertexSet.size_le_of_subset (hsub n (le_refl n))
    omega
  · intro m hm v hv
    exact hsub m hm v (ClosureSearch.mem_followed_iff.1 hv).1
  · intro v hv
    -- the last snapshot holds the vertex, so there is a first pass that has found it
    have hfound : v ∈ (after g s n).found := by
      rw [← hsnapshot, ClosureSearch.after_succ] at hv
      exact hv
    have hex : ∃ m, v ∈ (after g s m).found := ⟨n, hfound⟩
    refine ⟨Nat.find hex, ⟨Nat.find_min' hex hfound, ?_⟩, ?_⟩
    · exact ClosureSearch.mem_followed_iff.2 ⟨Nat.find_spec hex, fun k hk => Nat.find_min hex hk⟩
    · rintro m ⟨_, hm⟩
      obtain ⟨hin, hbefore⟩ := ClosureSearch.mem_followed_iff.1 hm
      exact ((Nat.find_eq_iff hex).2 ⟨hin, hbefore⟩).symm

/-- Two vertices in a circle, one of which also has an edge to itself: the second pass follows only
the edges of the new vertex, and it is the last one. -/
example :
    let g : Graph := ⟨#[⟨0, [], [1], []⟩, ⟨1, [], [1, 0], []⟩], by decide⟩
    ¬ (after g (.singleton 0) 1).Ended ∧ (after g (.singleton 0) 2).Ended ∧
      (after g (.singleton 0) 2).followed.toList = [1] := by decide

end Graph

end RegexAutomata
