import Mathlib.Tactic

/-! # Ranks in a window

The two ranks of a windowed query over the rows of a table. `denseRank` numbers the partitions in
their order, `rowNumber` the rows of one partition in theirs; both start at 1. The ranks of the
partitions are exactly `1, …, c` where `c` is how many there are (`denseRank_le`,
`exists_denseRank_eq`), they depend on the set of partitions alone (`denseRank_congr`), and every
partition has a first row (`exists_rowNumber_eq_one`). So a cap on the partitions does not care how
many rows a partition has. -/

namespace XChainIndexer.Lib.Window

open List

variable {α β γ : Type} [LinearOrder β] [LinearOrder γ] {part : α → β} {order : α → γ}
  {rows rows' : List α}

/-- The partitions of the rows. -/
def parts (part : α → β) (rows : List α) : Finset β := (rows.map part).toFinset

/-- `DENSE_RANK() OVER (ORDER BY part)`, at a partition. -/
def denseRank (part : α → β) (rows : List α) (k : β) : ℕ := ((parts part rows).filter (· < k)).card + 1

/-- `ROW_NUMBER() OVER (PARTITION BY part ORDER BY order)`, where no two rows of a partition tie. -/
def rowNumber (part : α → β) (order : α → γ) (rows : List α) (x : α) : ℕ :=
  (rows.filter fun y => part y = part x ∧ order y < order x).length + 1

variable {k : β}

theorem mem_parts : k ∈ parts part rows ↔ ∃ x ∈ rows, part x = k := by
  simp [parts]

theorem denseRank_congr (h : parts part rows = parts part rows') (k : β) :
    denseRank part rows k = denseRank part rows' k := by
  rw [denseRank, denseRank, h]

theorem denseRank_le (hk : k ∈ parts part rows) : denseRank part rows k ≤ (parts part rows).card :=
  Finset.card_lt_card (Finset.filter_ssubset.mpr ⟨k, hk, lt_irrefl k⟩)

/-- A set has a member above exactly `n` others, if it has more than `n`. -/
theorem exists_card_filter_lt_eq (s : Finset β) {n : ℕ} (hn : n < s.card) :
    ∃ k ∈ s, (s.filter (· < k)).card = n := by
  induction s using Finset.induction_on_max with
  | empty => simp at hn
  | insert a s hmax ih =>
    have ha : a ∉ s := fun hmem => lt_irrefl a (hmax a hmem)
    rw [Finset.card_insert_of_notMem ha] at hn
    rcases Nat.lt_succ_iff_lt_or_eq.mp hn with hlt | rfl
    · obtain ⟨k, hk, hcard⟩ := ih hlt
      refine ⟨k, Finset.mem_insert_of_mem hk, ?_⟩
      rw [Finset.filter_insert, if_neg (hmax k hk).not_gt]
      exact hcard
    · refine ⟨a, Finset.mem_insert_self a s, ?_⟩
      rw [Finset.filter_insert, if_neg (lt_irrefl a), Finset.filter_true_of_mem hmax]

theorem exists_denseRank_eq {n : ℕ} (hn : n < (parts part rows).card) :
    ∃ k ∈ parts part rows, denseRank part rows k = n + 1 := by
  obtain ⟨k, hk, hcard⟩ := exists_card_filter_lt_eq _ hn
  exact ⟨k, hk, by rw [denseRank, hcard]⟩

theorem exists_rowNumber_eq_one (order : α → γ) (hk : k ∈ parts part rows) :
    ∃ x ∈ rows, part x = k ∧ rowNumber part order rows x = 1 := by
  obtain ⟨x, hx, rfl⟩ := mem_parts.mp hk
  obtain ⟨m, hm, hmin⟩ := (((rows.filter fun y => part y = part x).map order).toFinset).exists_minimal
    ⟨order x, by simpa using ⟨x, ⟨hx, rfl⟩, rfl⟩⟩
  simp only [mem_toFinset, mem_map, mem_filter, decide_eq_true_eq] at hm hmin
  obtain ⟨y, ⟨hy, hpart⟩, rfl⟩ := hm
  refine ⟨y, hy, hpart, ?_⟩
  rw [rowNumber, filter_eq_nil_iff.mpr fun z hz => ?_]
  · rfl
  · rw [decide_eq_true_eq]
    rintro ⟨hzpart, hlt⟩
    exact hlt.not_ge (hmin ⟨z, ⟨hz, hzpart.trans hpart⟩, rfl⟩ hlt.le)

/-- Of the groups of a list only one contributes. -/
theorem flatMap_eq_of_unique {ι δ : Type} {l : List ι} (hnd : l.Nodup) {a : ι} (ha : a ∈ l)
    {f : ι → List δ} (hf : ∀ b ∈ l, b ≠ a → f b = []) : l.flatMap f = f a := by
  induction l with
  | nil => cases ha
  | cons b l ih =>
    rw [nodup_cons] at hnd
    rw [flatMap_cons]
    rcases mem_cons.mp ha with rfl | hrest
    · have hnil : l.flatMap f = [] := flatMap_eq_nil_iff.mpr fun c hc =>
        hf c (mem_cons_of_mem _ hc) fun he => hnd.1 (he ▸ hc)
      rw [hnil, append_nil]
    · have hne : b ≠ a := fun he => hnd.1 (he ▸ hrest)
      rw [hf b mem_cons_self hne]
      exact ih hnd.2 hrest fun c hc => hf c (mem_cons_of_mem _ hc)

end XChainIndexer.Lib.Window
