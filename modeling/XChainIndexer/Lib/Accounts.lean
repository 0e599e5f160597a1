import Mathlib.Algebra.BigOperators.Group.Finset.Piecewise
import Mathlib.Algebra.Order.BigOperators.Group.Finset
import Mathlib.Tactic.Ring
import Mathlib.Tactic.Linarith

/-! # Accounts as lists of movements

A movement adds a number, perhaps a negative one, to an account. `held l k` is what account `k` holds
after the movements `l` and `total l` is what all hold together. If no account is overdrawn, neither is
the total (`total_nonneg`), and no account holds more than it (`held_le_total`). -/

namespace XChainIndexer.Lib.Accounts

open List

variable {κ : Type}

/-- What all accounts hold. -/
def total (l : List (κ × ℚ)) : ℚ := (l.map Prod.snd).sum

@[simp] theorem total_nil : total ([] : List (κ × ℚ)) = 0 := rfl

@[simp] theorem total_append (l l' : List (κ × ℚ)) : total (l ++ l') = total l + total l' := by
  simp [total]

theorem total_cons (m : κ × ℚ) (l : List (κ × ℚ)) : total (m :: l) = m.2 + total l := by
  simp [total]

variable [DecidableEq κ]

/-- What the account holds. -/
def held (l : List (κ × ℚ)) (k : κ) : ℚ := (l.map fun m => if m.1 = k then m.2 else 0).sum

@[simp] theorem held_nil (k : κ) : held [] k = 0 := rfl

@[simp] theorem held_append (l l' : List (κ × ℚ)) (k : κ) : held (l ++ l') k = held l k + held l' k := by
  simp [held]

theorem held_cons (m : κ × ℚ) (l : List (κ × ℚ)) (k : κ) :
    held (m :: l) k = (if m.1 = k then m.2 else 0) + held l k := by
  simp [held]

section
variable (l : List (κ × ℚ)) {s : Finset κ}

/-- The total is what the accounts moved hold together. -/
theorem total_eq_sum_held (hs : ∀ m ∈ l, m.1 ∈ s) : total l = ∑ k ∈ s, held l k := by
  induction l with
  | nil => simp
  | cons m l ih =>
    have hm : ∑ k ∈ s, (if m.1 = k then m.2 else 0) = m.2 := by
      rw [Finset.sum_ite_eq, if_pos (hs m (by simp))]
    simp only [held_cons, Finset.sum_add_distrib, hm]
    rw [total_cons, ih fun m' hm' => hs m' (by simp [hm'])]

end

variable {l : List (κ × ℚ)}

theorem total_nonneg (h : ∀ k, 0 ≤ held l k) : 0 ≤ total l := by
  rw [total_eq_sum_held l (s := (l.map Prod.fst).toFinset) fun m hm => by
    simpa using ⟨m.2, hm⟩]
  exact Finset.sum_nonneg fun k _ => h k

theorem held_le_total (h : ∀ k, 0 ≤ held l k) (k : κ) : held l k ≤ total l := by
  rw [total_eq_sum_held l (s := insert k (l.map Prod.fst).toFinset) fun m hm =>
    Finset.mem_insert_of_mem (by simpa using ⟨m.2, hm⟩)]
  exact Finset.single_le_sum (fun k' _ => h k') (Finset.mem_insert_self k _)

end XChainIndexer.Lib.Accounts
