/-
Finite sets of vertices.

A vertex of a graph is given by its place, a natural number.  A set is the strictly
increasing list of its members, so that two sets with the same members are equal
(`VertexSet.ext`) and a set can serve as the key of a table.  `saturate` adds to a set
everything that can be reached from it.
-/

namespace RegexAutomata

/-- A finite set of vertices. -/
structure VertexSet where
  toList : List Nat
  sorted : toList.Pairwise (· < ·)
deriving DecidableEq

namespace VertexSet

instance : Membership Nat VertexSet := ⟨fun s v => v ∈ s.toList⟩

theorem mem_def {v : Nat} {s : VertexSet} : v ∈ s ↔ v ∈ s.toList := Iff.rfl

instance (v : Nat) (s : VertexSet) : Decidable (v ∈ s) :=
  inferInstanceAs (Decidable (v ∈ s.toList))

/-- The empty set. -/
def empty : VertexSet := ⟨[], .nil⟩

/-- The set of one vertex. -/
def singleton (v : Nat) : VertexSet := ⟨[v], List.pairwise_singleton _ _⟩

/-- Has the set no members? -/
def isEmpty (s : VertexSet) : Bool := s.toList.isEmpty

/-- The number of members. -/
def size (s : VertexSet) : Nat := s.toList.length

/-! ### Insertion -/

/-- A vertex put in its place of an increasing list, unless it is there. -/
def place (v : Nat) : List Nat → List Nat
  | [] => [v]
  | w :: ws => if v < w then v :: w :: ws else if v = w then w :: ws else w :: place v ws

theorem mem_place {v u : Nat} {l : List Nat} : u ∈ place v l ↔ u = v ∨ u ∈ l := by
  fun_induction place v l with
  | case1 => simp
  | case2 w ws h => simp
  | case3 ws h => simp
  | case4 w ws h1 h2 ih =>
    simp only [List.mem_cons, ih]
    constructor
    · rintro (h | h | h) <;> simp [h]
    · rintro (h | h | h) <;> simp [h]

theorem pairwise_place {v : Nat} {l : List Nat} (h : l.Pairwise (· < ·)) :
    (place v l).Pairwise (· < ·) := by
  fun_induction place v l with
  | case1 => simp
  | case2 w ws hv =>
    refine List.pairwise_cons.2 ⟨fun u hu => ?_, h⟩
    rcases List.mem_cons.1 hu with rfl | hu
    · exact hv
    · exact Nat.lt_trans hv ((List.pairwise_cons.1 h).1 u hu)
  | case3 ws hv => exact h
  | case4 w ws h1 h2 ih =>
    obtain ⟨hw, hs⟩ := List.pairwise_cons.1 h
    refine List.pairwise_cons.2 ⟨fun u hu => ?_, ih hs⟩
    rcases mem_place.1 hu with rfl | hu
    · omega
    · exact hw u hu

/-- The set with one more member. -/
def insert (v : Nat) (s : VertexSet) : VertexSet := ⟨place v s.toList, pairwise_place s.sorted⟩

/-- The set of the members of a list. -/
def ofList (l : List Nat) : VertexSet := l.foldr insert empty

/-! ### Union and difference -/

/-- The members of two increasing lists in one.  Both lists are read only once. -/
def merge : List Nat → List Nat → List Nat
  | [], m => m
  | v :: l, m =>
    m.takeWhile (· < v) ++ v :: merge l ((m.dropWhile (· < v)).dropWhile (· = v))

/-- The members of an increasing list that another one lacks.  Both lists are read only
once. -/
def without : List Nat → List Nat → List Nat
  | [], _ => []
  | v :: l, m =>
    let m := m.dropWhile (· < v)
    if m.head? = some v then without l m else v :: without l m

theorem mem_dropWhile_eq {v u : Nat} {m : List Nat} :
    u = v ∨ u ∈ m.dropWhile (· = v) ↔ u = v ∨ u ∈ m := by
  induction m with
  | nil => rfl
  | cons w m ih =>
    by_cases h : w = v
    · simp [h, ih]
    · simp [h]

theorem mem_merge {l m : List Nat} {u : Nat} : u ∈ merge l m ↔ u ∈ l ∨ u ∈ m := by
  induction l generalizing m with
  | nil => simp [merge]
  | cons v l ih =>
    have hm : u ∈ m ↔ u ∈ m.takeWhile (· < v) ∨ u ∈ m.dropWhile (· < v) := by
      rw [← List.mem_append, List.takeWhile_append_dropWhile]
    have hd := mem_dropWhile_eq (v := v) (u := u) (m := m.dropWhile (· < v))
    simp only [merge, List.mem_append, List.mem_cons, ih, hm]
    constructor
    · rintro (h | h | h | h)
      · exact .inr (.inl h)
      · exact .inl (.inl h)
      · exact .inl (.inr h)
      · rcases hd.1 (.inr h) with h | h
        · exact .inl (.inl h)
        · exact .inr (.inr h)
    · rintro ((h | h) | h | h)
      · exact .inr (.inl h)
      · exact .inr (.inr (.inl h))
      · exact .inl h
      · rcases hd.2 (.inr h) with h | h
        · exact .inr (.inl h)
        · exact .inr (.inr (.inr h))

theorem lt_of_mem_takeWhile {v u : Nat} {m : List Nat} (h : u ∈ m.takeWhile (· < v)) : u < v :=
  of_decide_eq_true (List.all_eq_true.1 (List.all_takeWhile (p := (· < v))) u h)

/-- What is left of an increasing list from the first member that is not below a bound. -/
theorem le_of_mem_dropWhile {v u : Nat} {m : List Nat} (hm : m.Pairwise (· < ·))
    (h : u ∈ m.dropWhile (· < v)) : v ≤ u := by
  induction m with
  | nil => simp at h
  | cons w m ih =>
    obtain ⟨hw, hm⟩ := List.pairwise_cons.1 hm
    rw [List.dropWhile_cons] at h
    split at h
    · exact ih hm h
    · rename_i hv
      simp only [decide_eq_true_eq, Nat.not_lt] at hv
      rcases List.mem_cons.1 h with rfl | h
      · exact hv
      · exact Nat.le_trans hv (Nat.le_of_lt (hw u h))

theorem lt_of_mem_dropWhile {v u : Nat} {m : List Nat} (hm : m.Pairwise (· < ·))
    (h : u ∈ (m.dropWhile (· < v)).dropWhile (· = v)) : v < u := by
  have hs : (m.dropWhile (· < v)).Pairwise (· < ·) := hm.sublist (List.dropWhile_sublist _)
  have hle : ∀ u ∈ m.dropWhile (· < v), v ≤ u := fun u hu => le_of_mem_dropWhile hm hu
  cases hd : m.dropWhile (· < v) with
  | nil => simp [hd] at h
  | cons w r =>
    rw [hd] at h hs
    obtain ⟨hw, hr⟩ := List.pairwise_cons.1 hs
    have hvw : v ≤ w := hle w (by rw [hd]; exact .head _)
    by_cases e : w = v
    · subst e
      have hu : u ∈ r := by
        rw [List.dropWhile_cons_of_pos (by simp)] at h
        exact (List.dropWhile_sublist _).subset h
      exact hw u hu
    · rw [List.dropWhile_cons_of_neg (by simpa using e)] at h
      rcases List.mem_cons.1 h with rfl | h
      · omega
      · have := hw u h
        omega

theorem pairwise_merge {l m : List Nat} (hl : l.Pairwise (· < ·)) (hm : m.Pairwise (· < ·)) :
    (merge l m).Pairwise (· < ·) := by
  induction l generalizing m with
  | nil => exact hm
  | cons v l ih =>
    obtain ⟨hv, hl⟩ := List.pairwise_cons.1 hl
    have hrest : ∀ u ∈ merge l ((m.dropWhile (· < v)).dropWhile (· = v)), v < u := by
      intro u hu
      rcases mem_merge.1 hu with hu | hu
      · exact hv u hu
      · exact lt_of_mem_dropWhile hm hu
    refine List.pairwise_append.2 ⟨hm.sublist (List.takeWhile_sublist _), ?_, ?_⟩
    · refine List.pairwise_cons.2 ⟨hrest, ih hl (hm.sublist ?_)⟩
      exact (List.dropWhile_sublist _).trans (List.dropWhile_sublist _)
    · intro u hu w hw
      have huv : u < v := lt_of_mem_takeWhile hu
      rcases List.mem_cons.1 hw with rfl | hw
      · exact huv
      · exact Nat.lt_trans huv (hrest w hw)

theorem mem_without {l m : List Nat} (hl : l.Pairwise (· < ·)) (hm : m.Pairwise (· < ·))
    {u : Nat} : u ∈ without l m ↔ u ∈ l ∧ u ∉ m := by
  induction l generalizing m with
  | nil => simp [without]
  | cons v l ih =>
    obtain ⟨hv, hl⟩ := List.pairwise_cons.1 hl
    have hs : (m.dropWhile (· < v)).Pairwise (· < ·) := hm.sublist (List.dropWhile_sublist _)
    have hdrop : ∀ w, v ≤ w → (w ∈ m.dropWhile (· < v) ↔ w ∈ m) := by
      intro w hw
      refine ⟨fun h => (List.dropWhile_sublist _).subset h, fun h => ?_⟩
      rw [← List.takeWhile_append_dropWhile (p := (· < v)) (l := m), List.mem_append] at h
      rcases h with h | h
      · have : w < v := lt_of_mem_takeWhile h
        omega
      · exact h
    have hin : (m.dropWhile (· < v)).head? = some v ↔ v ∈ m := by
      rw [← hdrop v (Nat.le_refl v)]
      cases hd : m.dropWhile (· < v) with
      | nil => simp
      | cons w r =>
        rw [hd] at hs
        have hvw : v ≤ w := le_of_mem_dropWhile hm (by rw [hd]; exact .head _)
        simp only [List.head?_cons, Option.some.injEq, List.mem_cons]
        refine ⟨fun h => .inl h.symm, ?_⟩
        rintro (h | h)
        · exact h.symm
        · have := (List.pairwise_cons.1 hs).1 v h
          omega
    have hrest : u ∈ without l (m.dropWhile (· < v)) ↔ u ∈ l ∧ u ∉ m := by
      rw [ih hl hs]
      refine and_congr_right fun hu => not_congr (hdrop u (Nat.le_of_lt (hv u hu)))
    simp only [without]
    split
    · rename_i h
      rw [hrest, List.mem_cons]
      refine ⟨fun hu => ⟨.inr hu.1, hu.2⟩, ?_⟩
      rintro ⟨rfl | hu, hn⟩
      · exact absurd (hin.1 h) hn
      · exact ⟨hu, hn⟩
    · rename_i h
      rw [List.mem_cons, hrest, List.mem_cons]
      constructor
      · rintro (rfl | hu)
        · exact ⟨.inl rfl, fun hm => h (hin.2 hm)⟩
        · exact ⟨.inr hu.1, hu.2⟩
      · rintro ⟨rfl | hu, hn⟩
        · exact .inl rfl
        · exact .inr ⟨hu, hn⟩

theorem without_sublist (l m : List Nat) : (without l m).Sublist l := by
  induction l generalizing m with
  | nil => exact List.nil_sublist _
  | cons v l ih =>
    simp only [without]
    split
    · exact (ih _).cons _
    · exact (ih _).cons_cons _

/-- The members of either set. -/
def union (s t : VertexSet) : VertexSet :=
  ⟨merge t.toList s.toList, pairwise_merge t.sorted s.sorted⟩

/-- The members of the first set that are not in the second. -/
def diff (s t : VertexSet) : VertexSet :=
  ⟨without s.toList t.toList, s.sorted.sublist (without_sublist _ _)⟩

/-! ### Membership -/

@[simp] theorem not_mem_empty (v : Nat) : ¬ v ∈ empty := by
  simp [mem_def, empty]

@[simp] theorem mem_singleton {v w : Nat} : v ∈ singleton w ↔ v = w := by
  simp [mem_def, singleton]

@[simp] theorem mem_insert {v w : Nat} {s : VertexSet} : v ∈ s.insert w ↔ v = w ∨ v ∈ s :=
  mem_place

theorem mem_foldr_insert {v : Nat} {l : List Nat} {s : VertexSet} :
    v ∈ l.foldr insert s ↔ v ∈ l ∨ v ∈ s := by
  induction l with
  | nil => simp
  | cons w ws ih => simp [ih, or_assoc]

@[simp] theorem mem_ofList {v : Nat} {l : List Nat} : v ∈ ofList l ↔ v ∈ l := by
  simp [ofList, mem_foldr_insert]

@[simp] theorem mem_union {v : Nat} {s t : VertexSet} : v ∈ s.union t ↔ v ∈ s ∨ v ∈ t :=
  mem_merge.trans or_comm

@[simp] theorem mem_diff {v : Nat} {s t : VertexSet} : v ∈ s.diff t ↔ v ∈ s ∧ ¬ v ∈ t :=
  mem_without s.sorted t.sorted

theorem isEmpty_iff {s : VertexSet} : s.isEmpty = true ↔ ∀ v, ¬ v ∈ s := by
  simp [isEmpty, mem_def, List.eq_nil_iff_forall_not_mem]

/-- Increasing lists with the same members are the same. -/
theorem eq_of_mem_iff {l m : List Nat} (hl : l.Pairwise (· < ·)) (hm : m.Pairwise (· < ·))
    (h : ∀ v, v ∈ l ↔ v ∈ m) : l = m := by
  induction l generalizing m with
  | nil => exact (List.eq_nil_iff_forall_not_mem.2 fun v hv => by simpa using (h v).2 hv).symm
  | cons a l ih =>
    cases m with
    | nil => simpa using (h a).1 (by simp)
    | cons b m =>
      obtain ⟨ha, hl'⟩ := List.pairwise_cons.1 hl
      obtain ⟨hb, hm'⟩ := List.pairwise_cons.1 hm
      have hab : a = b := by
        rcases List.mem_cons.1 ((h a).1 (by simp)) with e | h1
        · exact e
        · rcases List.mem_cons.1 ((h b).2 (by simp)) with e | h2
          · exact e.symm
          · have h3 := ha b h2
            have h4 := hb a h1
            omega
      subst hab
      congr 1
      refine ih hl' hm' fun v => ⟨fun hv => ?_, fun hv => ?_⟩
      · have hlt := ha v hv
        rcases List.mem_cons.1 ((h v).1 (List.mem_cons_of_mem _ hv)) with rfl | h1
        · omega
        · exact h1
      · have hlt := hb v hv
        rcases List.mem_cons.1 ((h v).2 (List.mem_cons_of_mem _ hv)) with rfl | h1
        · omega
        · exact h1

/-- A set is determined by its members. -/
theorem ext {s t : VertexSet} (h : ∀ v, v ∈ s ↔ v ∈ t) : s = t := by
  cases s with
  | mk l hl =>
    cases t with
    | mk m hm =>
      have e : l = m := eq_of_mem_iff hl hm h
      subst e
      rfl

/-! ### Saturation -/

/-- How many vertices below a bound are not in the set. -/
def missing (bound : Nat) (s : VertexSet) : Nat :=
  ((List.range bound).filter fun v => !s.toList.contains v).length

theorem missing_union_lt {bound : Nat} {s t : VertexSet} {v : Nat} (hv : v < bound)
    (ht : v ∈ t) (hs : ¬ v ∈ s) : missing bound (s.union t) < missing bound s := by
  have hsub : ∀ u, (!(s.union t).toList.contains u) = true →
      (!s.toList.contains u) = true := by
    intro u hu
    simp only [Bool.not_eq_true', List.contains_eq_mem, decide_eq_false_iff_not] at hu ⊢
    exact fun h => hu (mem_union.2 (.inl h))
  have hfil : (List.range bound).filter (fun u => !(s.union t).toList.contains u) =
      ((List.range bound).filter fun u => !s.toList.contains u).filter
        (fun u => !(s.union t).toList.contains u) := by
    rw [List.filter_filter]
    refine List.filter_congr fun u _ => ?_
    cases hu : !(s.union t).toList.contains u with
    | false => simp
    | true => rw [hsub u hu]; rfl
  unfold missing
  rw [hfil]
  refine List.length_filter_lt_length_iff_exists.2 ⟨v, ?_, ?_⟩
  · simp only [List.mem_filter, List.mem_range, Bool.not_eq_true', List.contains_eq_mem,
      decide_eq_false_iff_not]
    exact ⟨hv, hs⟩
  · simp only [Bool.not_eq_true', List.contains_eq_mem, decide_eq_false_iff_not, Decidable.not_not]
    exact mem_union.2 (.inr ht)

/-- The successors of the members of a set. -/
def image (next : Nat → List Nat) (s : VertexSet) : VertexSet := .ofList (s.toList.flatMap next)

theorem mem_image {next : Nat → List Nat} {s : VertexSet} {w : Nat} :
    w ∈ s.image next ↔ ∃ v ∈ s, w ∈ next v := by
  simp [image, mem_def (s := s)]

/-- Adds to `seen` what can be reached from `frontier`, where `next` gives the successors
of a vertex, all of them below a bound.  Each round looks only at what the round
before it has added. -/
def saturate (bound : Nat) (next : Nat → List Nat) (below : ∀ v, ∀ w ∈ next v, w < bound)
    (seen frontier : VertexSet) : VertexSet :=
  let fresh := (frontier.image next).diff seen
  if _ : fresh.isEmpty then seen else saturate bound next below (seen.union fresh) fresh
termination_by missing bound seen
decreasing_by
  rename_i h
  obtain ⟨w, hw⟩ : ∃ w, w ∈ fresh := Classical.byContradiction fun hn =>
    h (isEmpty_iff.2 fun v hv => hn ⟨v, hv⟩)
  have hw' := mem_diff.1 hw
  obtain ⟨v, _, hv⟩ := mem_image.1 hw'.1
  exact missing_union_lt (below v w hv) hw hw'.2

end VertexSet

end RegexAutomata
