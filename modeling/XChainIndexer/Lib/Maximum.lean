import Mathlib.Tactic

/-! # The maximum of a list of numbers, zero for the empty list

`SELECT COALESCE(MAX(x), 0)`: a bound of the list (`le_maxOf`) that is one of its numbers unless the
list is empty (`maxOf_mem`). -/

namespace XChainIndexer.Lib.Maximum

def maxOf (l : List ℕ) : ℕ := l.foldr max 0

variable {l : List ℕ}

theorem le_maxOf {x : ℕ} (h : x ∈ l) : x ≤ maxOf l := by
  induction l with
  | nil => exact nomatch h
  | cons y l ih =>
    rcases List.mem_cons.mp h with rfl | h
    · exact le_max_left _ _
    · exact (ih h).trans (le_max_right _ _)

theorem maxOf_mem (h : l ≠ []) : maxOf l ∈ l := by
  induction l with
  | nil => exact absurd rfl h
  | cons y l ih =>
    show max y (maxOf l) ∈ y :: l
    rcases max_choice y (maxOf l) with hm | hm <;> rw [hm]
    · exact List.mem_cons_self
    · by_cases hl : l = []
      · subst hl
        rw [maxOf, List.foldr_nil, max_eq_right_iff, Nat.le_zero] at hm
        rw [hm]
        exact List.mem_cons_self
      · exact List.mem_cons_of_mem _ (ih hl)

theorem maxOf_le {m : ℕ} (h : ∀ x ∈ l, x ≤ m) : maxOf l ≤ m := by
  by_cases hl : l = []
  · subst hl
    exact Nat.zero_le m
  · exact h _ (maxOf_mem hl)

end XChainIndexer.Lib.Maximum
