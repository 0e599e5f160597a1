import Mathlib.Tactic

/-! # Sums over the rows of a table

`sumOver amount p rows` is the sum of the amounts of the rows that satisfy `p`: what a ledger
attributes to an account, an offer or an action. -/

namespace XChainIndexer.Lib.SumOver

open List

variable {α : Type} {amount : α → ℚ} {p : α → Bool}

def sumOver (amount : α → ℚ) (p : α → Bool) (rows : List α) : ℚ := ((rows.filter p).map amount).sum

@[simp]
theorem sumOver_append (rows rows' : List α) :
    sumOver amount p (rows ++ rows') = sumOver amount p rows + sumOver amount p rows' := by
  unfold sumOver
  rw [filter_append, map_append, sum_append]

variable {rows' : List α}

/-- New rows that all count. -/
theorem sumOver_append_of_forall (rows : List α) (h : ∀ x ∈ rows', p x) :
    sumOver amount p (rows ++ rows') = sumOver amount p rows + (rows'.map amount).sum := by
  rw [sumOver_append]
  unfold sumOver
  rw [filter_eq_self.mpr h]

variable {rows : List α}

theorem sumOver_eq_zero (h : ∀ x ∈ rows, p x = false) : sumOver amount p rows = 0 := by
  unfold sumOver
  rw [filter_eq_nil_iff.mpr fun x hx => by rw [h x hx]; decide]
  rfl

/-- New rows none of which counts. -/
theorem sumOver_append_of_forall_not (rows : List α) (h : ∀ x ∈ rows', p x = false) :
    sumOver amount p (rows ++ rows') = sumOver amount p rows := by
  rw [sumOver_append, sumOver_eq_zero h, add_zero]

theorem sumOver_map {β : Type} (f : β → α) (rows : List β) :
    sumOver amount p (rows.map f) = sumOver (fun x => amount (f x)) (fun x => p (f x)) rows := by
  unfold sumOver
  rw [filter_map, map_map]
  rfl

theorem sumOver_filter (q : α → Bool) (rows : List α) :
    sumOver amount p (rows.filter q) = sumOver amount (fun x => p x && q x) rows := by
  unfold sumOver
  rw [filter_filter]

theorem sumOver_reverse (rows : List α) : sumOver amount p rows.reverse = sumOver amount p rows := by
  unfold sumOver
  rw [filter_reverse, map_reverse, sum_reverse]

theorem sumOver_congr {amount' : α → ℚ} {p' : α → Bool} (hp : ∀ x ∈ rows, p x = p' x)
    (hamount : ∀ x ∈ rows, p' x → amount x = amount' x) :
    sumOver amount p rows = sumOver amount' p' rows := by
  unfold sumOver
  rw [filter_congr hp]
  refine congrArg List.sum (map_congr_left fun x hx => ?_)
  exact hamount x (mem_filter.mp hx).1 (mem_filter.mp hx).2

theorem sumOver_cons (x : α) (rows : List α) :
    sumOver amount p (x :: rows) = (if p x then amount x else 0) + sumOver amount p rows := by
  unfold sumOver
  rw [filter_cons]
  split_ifs <;> simp

/-- What counts of the one row with a key. -/
theorem sumOver_key {κ : Type} [DecidableEq κ] {key : α → κ} (hnd : (rows.map key).Nodup) {x : α}
    (hx : x ∈ rows) : sumOver amount (fun y => key y = key x && p y) rows = if p x then amount x else 0 := by
  induction rows with
  | nil => cases hx
  | cons y rows ih =>
    rw [map_cons, nodup_cons] at hnd
    rw [sumOver_cons]
    rcases mem_cons.mp hx with rfl | hrest
    · have hnone : sumOver amount (fun y => key y = key x && p y) rows = 0 := by
        refine sumOver_eq_zero fun z hz => ?_
        have hne : key z ≠ key x := fun he => hnd.1 (mem_map.mpr ⟨z, hz, he⟩)
        simp [hne]
      simp [hnone]
    · have hne : key y ≠ key x := fun he => hnd.1 (mem_map.mpr ⟨x, hrest, he.symm⟩)
      simp [hne, ih hnd.2 hrest]

/-- Rows of nothing can be left out. -/
theorem sum_filter_pos (rows : List α) (h : ∀ x ∈ rows, 0 ≤ amount x) :
    ((rows.filter fun x => 0 < amount x).map amount).sum = (rows.map amount).sum := by
  induction rows with
  | nil => rfl
  | cons x rows ih =>
    have hrest := ih fun y hy => h y (by simp [hy])
    rw [filter_cons]
    split_ifs with hpos
    · rw [map_cons, sum_cons, map_cons, sum_cons, hrest]
    · have hzero : amount x = 0 := le_antisymm (not_lt.mp (by simpa using hpos)) (h x (by simp))
      rw [hrest, map_cons, sum_cons, hzero, zero_add]

end XChainIndexer.Lib.SumOver
