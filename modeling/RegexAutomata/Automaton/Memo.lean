/-
Notes on where symbols lead.

A `Memo` notes which set of vertices was reached from which set by which symbol.  What a
look-up gives after a note was added is `get?_put`.
-/
import RegexAutomata.Alphabet
import RegexAutomata.Automaton.VertexSet
import Std.Data.TreeMap

namespace RegexAutomata

/-- The notes on one set of vertices: where each symbol leads. -/
abbrev MemoRow := Std.TreeMap Symbol VertexSet

/-- Where symbols were found to lead from sets of vertices, which are given by the lists
of their members. -/
structure Memo where
  rows : Std.TreeMap (List Nat) MemoRow

namespace Memo

/-- No notes. -/
def empty : Memo := ⟨∅⟩

/-- The notes on a set. -/
def row (m : Memo) (src : VertexSet) : MemoRow := m.rows.getD src.toList ∅

/-- Where a symbol was found to lead from a set. -/
def get? (m : Memo) (src : VertexSet) (s : Symbol) : Option VertexSet := (m.row src)[s]?

/-- One more note. -/
def put (m : Memo) (src : VertexSet) (s : Symbol) (dst : VertexSet) : Memo :=
  ⟨m.rows.insert src.toList ((m.row src).insert s dst)⟩

/-- The number of sets that there are notes on. -/
def size (m : Memo) : Nat := m.rows.size

/-- All notes, by set and by symbol. -/
def toList (m : Memo) : List (List Nat × List (Symbol × VertexSet)) :=
  m.rows.toList.map fun r => (r.1, r.2.toList)

theorem get?_empty (src : VertexSet) (s : Symbol) : empty.get? src s = none := by
  simp [empty, get?, row]

/-- What a look-up gives after a note was added. -/
theorem get?_put (m : Memo) (src src' : VertexSet) (s s' : Symbol) (dst : VertexSet) :
    (m.put src s dst).get? src' s' =
      if src = src' ∧ s = s' then some dst else m.get? src' s' := by
  have hsrc : src.toList = src'.toList ↔ src = src' := by
    refine ⟨fun h => VertexSet.ext fun v => ?_, fun h => h ▸ rfl⟩
    rw [VertexSet.mem_def, VertexSet.mem_def, h]
  by_cases h : src = src'
  · subst h
    by_cases hs : s = s'
    · subst hs
      simp [get?, put, row]
    · simp [get?, put, row, Std.TreeMap.getElem?_insert, hs]
  · have hl : ¬ src.toList = src'.toList := fun e => h (hsrc.1 e)
    simp [get?, put, row, Std.TreeMap.getD_insert, h, hl]

end Memo

end RegexAutomata
