/-
Tables from keys to values.

A table is a list of pairs in which no key occurs twice if it has been made by `put`
and `erase`; `get?_put` says what a look-up gives afterwards.
-/

namespace RegexAutomata

/-- A table, the pair that was added last first. -/
abbrev Table (α β : Type) := List (α × β)

namespace Table

variable {α β : Type} [DecidableEq α]

/-- The value of a key. -/
def get? (t : Table α β) (k : α) : Option β :=
  match t with
  | [] => none
  | (l, v) :: rest => if l = k then some v else get? rest k

/-- The table without a key. -/
def erase (t : Table α β) (k : α) : Table α β := List.filter (fun e => e.1 ≠ k) t

/-- The table with a new value for a key. -/
def put (t : Table α β) (k : α) (v : β) : Table α β := (k, v) :: erase t k

theorem get?_erase_of_ne (t : Table α β) {k l : α} (h : l ≠ k) :
    get? (erase t k) l = get? t l := by
  induction t with
  | nil => rfl
  | cons e t ih =>
    obtain ⟨m, v⟩ := e
    by_cases hm : m = k
    · have hl : m ≠ l := fun e => h (e.symm.trans hm)
      simpa [erase, get?, hm, Ne.symm h] using ih
    · simp only [erase, get?] at ih ⊢
      rw [List.filter_cons_of_pos (by simpa using hm), get?, ih]

theorem get?_erase_self (t : Table α β) (k : α) : get? (erase t k) k = none := by
  induction t with
  | nil => rfl
  | cons e t ih =>
    obtain ⟨m, v⟩ := e
    by_cases hm : m = k
    · simpa [erase, get?, hm] using ih
    · simp only [erase] at ih ⊢
      rw [List.filter_cons_of_pos (by simpa using hm), get?, if_neg hm, ih]

/-- What a look-up gives after a key was erased. -/
theorem get?_erase (t : Table α β) (k l : α) :
    get? (erase t k) l = if l = k then none else get? t l := by
  by_cases h : l = k
  · rw [if_pos h, h, get?_erase_self]
  · rw [if_neg h, get?_erase_of_ne t h]

/-- What a look-up gives after a key was given a new value. -/
theorem get?_put (t : Table α β) (k l : α) (v : β) :
    get? (put t k v) l = if l = k then some v else get? t l := by
  by_cases h : l = k
  · simp [put, get?, h]
  · simp [put, get?, h, Ne.symm h, get?_erase_of_ne t h]

end Table

end RegexAutomata
