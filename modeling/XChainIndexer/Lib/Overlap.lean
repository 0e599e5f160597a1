import Mathlib.Tactic

/-! # Overlapping quorums

Two subsets of a set of at most `n` elements that have at least `q` elements each meet in at least
`2 q - n`. When that is more than `f`, some element outside any set of `f` is in both. With a weight on
every element, two subsets of more than two thirds of the weight meet in more than a third of it
(`third_lt_sum_inter`). -/

namespace XChainIndexer.Lib.Overlap

variable {α : Type*} [DecidableEq α] {s a b : Finset α}

theorem le_card_inter_add (ha : a ⊆ s) (hb : b ⊆ s) : a.card + b.card ≤ (a ∩ b).card + s.card := by
  have hu := Finset.card_le_card (Finset.union_subset ha hb)
  have := Finset.card_union_add_card_inter a b
  omega

theorem exists_mem_inter_notMem {f : Finset α} {n q : ℕ} (ha : a ⊆ s) (hb : b ⊆ s) (hs : s.card ≤ n)
    (hqa : q ≤ a.card) (hqb : q ≤ b.card) (hf : n + f.card < 2 * q) : ∃ x, x ∈ a ∧ x ∈ b ∧ x ∉ f := by
  have hi := le_card_inter_add ha hb
  obtain ⟨x, hx, hxf⟩ := Finset.exists_mem_notMem_of_card_lt_card (show f.card < (a ∩ b).card by omega)
  rw [Finset.mem_inter] at hx
  exact ⟨x, hx.1, hx.2, hxf⟩

section
variable {w : α → ℚ} (hw : ∀ x ∈ s, 0 ≤ w x) (ha : a ⊆ s) (hb : b ⊆ s)
include hw ha hb

theorem sum_add_sum_le : ∑ x ∈ a, w x + ∑ x ∈ b, w x ≤ ∑ x ∈ a ∩ b, w x + ∑ x ∈ s, w x := by
  have hunion : ∑ x ∈ a ∪ b, w x ≤ ∑ x ∈ s, w x :=
    Finset.sum_le_sum_of_subset_of_nonneg (Finset.union_subset ha hb) fun x hx _ => hw x hx
  have : ∑ x ∈ a ∪ b, w x + ∑ x ∈ a ∩ b, w x = ∑ x ∈ a, w x + ∑ x ∈ b, w x := Finset.sum_union_inter
  linarith

/-- **Two thirds and two thirds meet in a third.** -/
theorem third_lt_sum_inter
    (hqa : 2 * ∑ x ∈ s, w x < 3 * ∑ x ∈ a, w x) (hqb : 2 * ∑ x ∈ s, w x < 3 * ∑ x ∈ b, w x) :
    ∑ x ∈ s, w x < 3 * ∑ x ∈ a ∩ b, w x := by
  have := sum_add_sum_le hw ha hb
  linarith

end

end XChainIndexer.Lib.Overlap
