import XChainIndexer.IndexTables

/-! # What interning a name does to its table

`createTicker` and `createAddress` either leave their table alone or append one row under the next id
(`createTicker_spec`, `createAddress_spec`), and the id they return is that of a row. `IndexOk` is what
the rows keep: one row an id, and no empty name. -/

namespace XChainIndexer.Interning

open IndexTables List

/-- The table after a name was looked up or interned. -/
def Interned (block : ℕ) (name : Text) (rows rows' : List IndexRow) : Prop :=
  rows' = rows ∨ (name ≠ [] ∧ rows' = rows ++ [⟨nextId rows, name, some block⟩])

variable {rows : List IndexRow} {id : ℕ}

theorem mem_of_lowestId {p : IndexRow → Bool} (h : lowestId rows p = some id) :
    ∃ row ∈ rows, row.id = id := by
  have hmem := min?_mem h
  obtain ⟨row, hrow, rfl⟩ := mem_map.mp hmem
  exact ⟨row, mem_of_mem_filter hrow, rfl⟩

theorem mem_of_deterministicId {i : ℕ} (h : deterministicId rows id = some i) : ∃ row ∈ rows, row.id = i := by
  obtain ⟨row, hrow, rfl⟩ := Option.map_eq_some_iff.mp h
  exact ⟨row, mem_of_find?_eq_some hrow, rfl⟩

variable {tick : Text} {n : Names} {c : Ctx}

theorem mem_of_getTickerId (h : getTickerId c n tick = some id) : ∃ row ∈ n.tickers, row.id = id := by
  unfold getTickerId at h
  split at h
  · exact mem_of_deterministicId h
  · exact mem_of_lowestId h

theorem mem_of_getAddressId {address : Text}
    (h : getAddressId c n address = some id) : ∃ row ∈ n.addresses, row.id = id := by
  unfold getAddressId at h
  split at h
  · exact mem_of_deterministicId h
  · split_ifs at h
    exact mem_of_lowestId h

theorem interned_insertTicker (ht : tick ≠ []) (block : ℕ) :
    Interned block tick rows (insertTicker rows ⟨nextId rows, tick, some block⟩) := by
  unfold insertTicker
  split_ifs
  · exact .inl rfl
  · exact .inr ⟨ht, rfl⟩

theorem createTicker_spec (c : Ctx) (n : Names) (tick : Text) :
    (createTicker c n tick).1.addresses = n.addresses ∧
      Interned c.blockIndex tick n.tickers (createTicker c n tick).1.tickers ∧
      ∀ id, (createTicker c n tick).2 = some id → ∃ row ∈ (createTicker c n tick).1.tickers, row.id = id := by
  unfold createTicker
  cases hget : getTickerId c n tick with
  | some id =>
    split_ifs with hnil
    · exact ⟨rfl, Or.inl rfl, by simp⟩
    all_goals exact ⟨rfl, Or.inl rfl, fun _ hi => Option.some.inj hi ▸ mem_of_getTickerId hget⟩
  | none =>
    split_ifs with hnil
    · exact ⟨rfl, Or.inl rfl, by simp⟩
    · exact ⟨rfl, Or.inl rfl, by simp⟩
    · exact ⟨rfl, Or.inl rfl, by simp⟩
    · exact ⟨rfl, Or.inl rfl, by simp⟩
    · exact ⟨rfl, interned_insertTicker hnil _, fun _ => mem_of_getTickerId⟩

theorem substringUnits_ne_nil {k : ℕ} {t : Text} (hk : 0 < k) (ht : t ≠ []) : substringUnits k t ≠ [] := by
  obtain ⟨k, rfl⟩ := Nat.exists_eq_succ_of_ne_zero hk.ne'
  cases t with
  | nil => exact absurd rfl ht
  | cons ch t =>
    rw [substringUnits]
    split_ifs <;> simp

theorem createAddress_spec (c : Ctx) (n : Names) (address : Text) :
    (createAddress c n address).1.tickers = n.tickers ∧
      Interned c.blockIndex (substringUnits 120 address) n.addresses
        (createAddress c n address).1.addresses ∧ ∀ id, (createAddress c n address).2 = some id →
        ∃ row ∈ (createAddress c n address).1.addresses, row.id = id := by
  unfold createAddress
  dsimp only
  cases hget : getAddressId c n (substringUnits 120 address) with
  | some id =>
    split_ifs with hnil
    · exact ⟨rfl, Or.inl rfl, by simp⟩
    · exact ⟨rfl, Or.inl rfl, by simp⟩
    all_goals exact ⟨rfl, Or.inl rfl, fun _ hi => Option.some.inj hi ▸ mem_of_getAddressId hget⟩
  | none =>
    split_ifs with hnil
    · exact ⟨rfl, Or.inl rfl, by simp⟩
    · exact ⟨rfl, Or.inl rfl, by simp⟩
    · exact ⟨rfl, Or.inl rfl, by simp⟩
    · exact ⟨rfl, Or.inl rfl, by simp⟩
    · refine ⟨rfl, ?_, fun _ => mem_of_getAddressId⟩
      dsimp only [insertAddress]
      split_ifs
      · exact .inl rfl
      · exact .inr ⟨substringUnits_ne_nil (by omega) hnil, rfl⟩

/-! ### Well-formed tables -/

structure IndexOk (rows : List IndexRow) : Prop where
  nodup : (rows.map IndexRow.id).Nodup
  name_ne : ∀ row ∈ rows, row.name ≠ []

theorem foldl_max_le_iff {l : List ℕ} {m n : ℕ} : l.foldl max m ≤ n ↔ m ≤ n ∧ ∀ x ∈ l, x ≤ n := by
  induction l generalizing m with
  | nil => simp
  | cons y l ih =>
    rw [foldl_cons, ih, max_le_iff, forall_mem_cons, and_assoc]

variable {row : IndexRow}

theorem lt_nextId (h : row ∈ rows) : row.id < nextId rows :=
  Nat.lt_succ_of_le ((foldl_max_le_iff.mp le_rfl).2 row.id (mem_map_of_mem h))

theorem IndexOk.row_unique (h : IndexOk rows) {r r' : IndexRow} (hr : r ∈ rows) (hr' : r' ∈ rows)
    (hid : r.id = r'.id) : r = r' :=
  inj_on_of_nodup_map h.nodup hr hr' hid

variable {rows' : List IndexRow} {block : ℕ} {name : Text}

theorem IndexOk.interned (h : IndexOk rows) (hi : Interned block name rows rows') : IndexOk rows' := by
  rcases hi with rfl | ⟨hne, rfl⟩
  · exact h
  · have hnew : nextId rows ∉ rows.map IndexRow.id := fun hmem => by
      obtain ⟨row, hrow, hid⟩ := mem_map.mp hmem
      have := lt_nextId hrow
      omega
    refine ⟨?_, fun row hrow => ?_⟩
    · rw [map_append]
      exact h.nodup.append (nodup_singleton _) (by simpa using hnew)
    · rcases mem_append.mp hrow with hrow | hrow
      · exact h.name_ne row hrow
      · rw [mem_singleton.mp hrow]
        exact hne

theorem Interned.subset (hi : Interned block name rows rows') : rows ⊆ rows' := by
  rcases hi with rfl | ⟨_, rfl⟩
  · exact List.Subset.refl _
  · exact subset_append_left _ _

theorem Interned.mem (hi : Interned block name rows rows') (hrow : row ∈ rows') :
    row ∈ rows ∨ (row.id = nextId rows ∧ row.name = name) := by
  rcases hi with rfl | ⟨_, rfl⟩
  · exact .inl hrow
  · rcases mem_append.mp hrow with hrow | hrow
    · exact .inl hrow
    · rw [mem_singleton.mp hrow]
      exact .inr ⟨rfl, rfl⟩

end XChainIndexer.Interning
