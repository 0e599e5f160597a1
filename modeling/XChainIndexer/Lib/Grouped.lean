import Mathlib.Data.List.Sort

/-! # Reading rows for many keys at once

A reader that needs the rows of several keys may run one query for each key, or one for all and split
what it gets. `filter_orderBy` says that the rows of a key come out of the wide query in the order of
the narrow one, and `foldl_update_apply` that folding the wide answer into a map folds, at each key,
the rows of that key. Under a unique key a query for one key answers with one row at most
(`filter_unique`). -/

namespace XChainIndexer.Lib.Grouped

open List

variable {α β κ κ' : Type}

/-- `ORDER BY key ASC`. -/
def orderBy [LinearOrder κ] (key : α → κ) (l : List α) : List α :=
  l.insertionSort fun a b => key a ≤ key b

theorem pairwise_orderBy [LinearOrder κ] (key : α → κ) (l : List α) :
    (orderBy key l).Pairwise fun a b => key a ≤ key b := by
  exact pairwise_insertionSort _ l

variable {key : α → κ} {p : α → Bool} {l : List α}

/-- **The rows of a part of a query, in the order of a query for that part.** -/
theorem filter_orderBy [LinearOrder κ] [LinearOrder κ'] (key' : α → κ')
    (hnd : (l.map key').Nodup) (hmono : ∀ a b, p a → p b → key a ≤ key b → key' a ≤ key' b) :
    (orderBy key l).filter p = orderBy key' (l.filter p) := by
  have hperm : ((orderBy key l).filter p).Perm (l.filter p) := (perm_insertionSort _ l).filter p
  have hsorted : (orderBy key' (l.filter p)).Perm (l.filter p) := perm_insertionSort _ _
  refine List.Perm.eq_of_pairwise (fun a b ha hb hab hba => ?_) ?_ (pairwise_orderBy key' _)
    (hperm.trans hsorted.symm)
  · have hal := mem_of_mem_filter (hperm.mem_iff.mp ha)
    have hbl := mem_of_mem_filter (hsorted.mem_iff.mp hb)
    exact inj_on_of_nodup_map hnd hal hbl (le_antisymm hab hba)
  · refine ((pairwise_orderBy key l).filter p).imp_of_mem fun {a b} ha hb hab => ?_
    exact hmono a b (mem_filter.mp ha).2 (mem_filter.mp hb).2 hab

/-- **Folding rows into a map folds the rows of each key.** -/
theorem foldl_update_apply [DecidableEq κ] (key : α → κ) (f : β → α → β) (l : List α) (m : κ → β) (k : κ) :
    l.foldl (fun m a => Function.update m (key a) (f (m (key a)) a)) m k =
      (l.filter fun a => key a = k).foldl f (m k) := by
  induction l generalizing m with
  | nil => rfl
  | cons a l ih =>
    rw [foldl_cons, ih]
    by_cases h : key a = k
    · rw [filter_cons_of_pos (by simpa using h), foldl_cons, ← h, Function.update_self]
    · rw [filter_cons_of_neg (by simpa using h), Function.update_of_ne (Ne.symm h)]

theorem filter_unique (hnd : (l.map key).Nodup) (hp : ∀ a ∈ l, ∀ b ∈ l, p a → p b → key a = key b) :
    l.filter p = [] ∨ ∃ a ∈ l, p a ∧ l.filter p = [a] := by
  match hl : l.filter p with
  | [] => exact .inl rfl
  | [a] =>
    have ha : a ∈ l.filter p := by simp [hl]
    exact .inr ⟨a, mem_of_mem_filter ha, (mem_filter.mp ha).2, rfl⟩
  | a :: b :: rest =>
    have ha : a ∈ l.filter p := by simp [hl]
    have hb : b ∈ l.filter p := by simp [hl]
    rw [mem_filter] at ha hb
    have hab := inj_on_of_nodup_map hnd ha.1 hb.1 (hp a ha.1 b hb.1 ha.2 hb.2)
    have hnd' := (hnd.of_map key).filter p
    rw [hl, hab] at hnd'
    simp at hnd'

end XChainIndexer.Lib.Grouped
