/-
Marking what can be reached.

`walk` marks vertices one after the other: it takes the top of a stack, marks it and puts
its successors on the stack, unless it was marked before.  A vertex is marked only once,
so the walk ends (`unmarked_set_lt`).  `toSet` collects the marked vertices.
-/
import RegexAutomata.Automaton.VertexSet

namespace RegexAutomata

/-- For each vertex below a bound, whether it is marked. -/
abbrev Marks := Array Bool

namespace Marks

/-- No vertex below a bound is marked. -/
def none (bound : Nat) : Marks := Array.replicate bound false

/-- How many vertices are not marked. -/
def unmarked (m : Marks) : Nat := m.toList.count false

theorem unmarked_set_lt {m : Marks} {v : Nat} (h : m[v]? = some false) :
    unmarked (m.setIfInBounds v true) < unmarked m := by
  obtain ⟨hv, hm⟩ := Array.getElem?_eq_some_iff.1 h
  have hl : v < m.toList.length := by simpa using hv
  have hpos : 0 < m.toList.count false :=
    List.count_pos_iff.2 (hm ▸ Array.getElem_mem_toList hv)
  unfold unmarked
  rw [Array.toList_setIfInBounds, List.count_set hl, Array.getElem_toList, hm]
  simp only [beq_self_eq_true, if_true]
  exact Nat.sub_lt hpos Nat.one_pos

/-- Marks the vertices of a stack and all that can be reached from them, except what was
marked before.  There are no marks, and no successors, above the bound. -/
def walk (next : Nat → List Nat) (m : Marks) : List Nat → Marks
  | [] => m
  | v :: stack =>
    match _h : m[v]? with
    | some false => walk next (m.setIfInBounds v true) (next v ++ stack)
    | _ => walk next m stack
termination_by stack => (unmarked m, stack.length)
decreasing_by
  · exact Prod.Lex.left _ _ (unmarked_set_lt _h)
  · exact Prod.Lex.right _ (Nat.lt_succ_self _)

/-- The vertices that are marked. -/
def toSet (m : Marks) : VertexSet :=
  ⟨(List.range m.size).filter fun v => m.getD v false, List.pairwise_lt_range.filter _⟩

@[simp] theorem mem_toSet {m : Marks} {v : Nat} : v ∈ m.toSet ↔ m[v]? = some true := by
  simp only [toSet, VertexSet.mem_def, List.mem_filter, List.mem_range]
  rw [Array.getElem?_eq_some_iff, Array.getD]
  constructor
  · rintro ⟨hv, h⟩
    rw [dif_pos hv] at h
    exact ⟨hv, h⟩
  · rintro ⟨hv, h⟩
    rw [dif_pos hv]
    exact ⟨hv, h⟩

end Marks

end RegexAutomata
