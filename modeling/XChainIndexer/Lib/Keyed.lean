import XChainIndexer.Lib.Assoc

/-! # Accumulating by key, and upserting under a partial key

Two ways a list of keyed records becomes a table.

* `consolidate f l` adds up the records of `l` that share a key, in the order in which the keys
  first appear. `mem_consolidate`: the record of key `k` holds the `f`-chain of the values that `l`
  stages under `k`; `nodup_consolidate`: every key has one record.
* `upsert key rows r` replaces the rows that carry the key of `r`, or appends `r`. The key is
  partial: a row whose key is `none` matches nothing, not even itself, as a row with a `NULL` in a
  key column does. `foldl_upsert_length_iff`: writing the rows `rs` makes the table grow by
  `rs.length` rows iff no key is written twice or was there before, and then (`foldl_upsert`) the
  rows are simply appended. -/

namespace XChainIndexer.Lib.Keyed

open List

section Consolidate
variable {κ α : Type} [DecidableEq κ]

/-- Add `a` to the record of key `k`, or append a record for it. -/
def accumulate (f : α → α → α) : List (κ × α) → κ → α → List (κ × α)
  | [], k, a => [(k, a)]
  | (k', b) :: l, k, a => if k' = k then (k', f b a) :: l else (k', b) :: accumulate f l k a

/-- The records of `l`, added up by key. -/
def consolidate (f : α → α → α) (l : List (κ × α)) : List (κ × α) :=
  l.foldl (fun acc r => accumulate f acc r.1 r.2) []

/-- The values staged under `k`. -/
def valuesAt (l : List (κ × α)) (k : κ) : List α := (l.filter fun r => r.1 = k).map Prod.snd

/-- The values of a list, chained from the first one on. -/
def chain (f : α → α → α) : List α → Option α
  | [] => none
  | a :: l => some (l.foldl f a)

theorem chain_append (f : α → α → α) (l : List α) (a : α) :
    chain f (l ++ [a]) = some (match chain f l with
      | none => a
      | some b => f b a) := by
  cases l with
  | nil => rfl
  | cons b l => simp [chain]

theorem valuesAt_append (l : List (κ × α)) (r : κ × α) (k : κ) :
    valuesAt (l ++ [r]) k = if r.1 = k then valuesAt l k ++ [r.2] else valuesAt l k := by
  unfold valuesAt
  split_ifs with h <;> simp [h]

theorem keys_accumulate (f : α → α → α) (l : List (κ × α)) (k : κ) (a : α) :
    (accumulate f l k a).map Prod.fst =
      if k ∈ l.map Prod.fst then l.map Prod.fst else l.map Prod.fst ++ [k] := by
  induction l with
  | nil => simp [accumulate]
  | cons r l ih =>
    obtain ⟨k', b⟩ := r
    unfold accumulate
    by_cases h : k' = k
    · simp [h]
    · have hk : ¬ k = k' := fun e => h e.symm
      simp only [h, if_false, map_cons, ih, mem_cons, hk, false_or]
      split_ifs <;> simp

variable {f : α → α → α} {l : List (κ × α)}

theorem nodup_accumulate (hl : (l.map Prod.fst).Nodup) (k : κ) (a : α) :
    ((accumulate f l k a).map Prod.fst).Nodup := by
  rw [keys_accumulate]
  split_ifs with h
  · exact hl
  · exact hl.append (nodup_singleton k) (by simpa using h)

variable {k : κ} {b : α}

theorem mem_accumulate_ne {k' : κ} {a : α} (h : k' ≠ k) : (k', b) ∈ accumulate f l k a ↔ (k', b) ∈ l := by
  induction l with
  | nil => simp [accumulate, h]
  | cons r l ih =>
    obtain ⟨j, c⟩ := r
    unfold accumulate
    by_cases hj : j = k
    · simp [hj, h]
    · simp [hj, ih]

theorem mem_accumulate_self (hl : (l.map Prod.fst).Nodup) {a : α} : (k, b) ∈ accumulate f l k a ↔
      (k ∉ l.map Prod.fst ∧ b = a) ∨ ∃ c, (k, c) ∈ l ∧ b = f c a := by
  induction l with
  | nil => simp [accumulate]
  | cons r l ih =>
    obtain ⟨j, c⟩ := r
    rw [map_cons, nodup_cons] at hl
    unfold accumulate
    by_cases hj : j = k
    · subst hj
      have hno : ∀ d, (j, d) ∉ l := fun d hd => hl.1 (mem_map.mpr ⟨_, hd, rfl⟩)
      simp [hno]
    · have hk : ¬ k = j := fun e => hj e.symm
      simp only [hj, if_false, mem_cons, Prod.mk.injEq, hk, false_and, false_or, map_cons, ih hl.2]

section
variable (f : α → α → α) (l : List (κ × α))

theorem nodup_consolidate : ((consolidate f l).map Prod.fst).Nodup := by
  induction l using List.reverseRecOn with
  | nil => simp [consolidate]
  | append_singleton l r ih =>
    simp only [consolidate, foldl_append, foldl_cons, foldl_nil]
    exact nodup_accumulate ih _ _

/-- **A key's record is the chain of the values staged under it.** -/
theorem mem_consolidate : (k, b) ∈ consolidate f l ↔ chain f (valuesAt l k) = some b := by
  induction l using List.reverseRecOn generalizing b with
  | nil => simp [consolidate, valuesAt, chain]
  | append_singleton l r ih =>
    have hstep : consolidate f (l ++ [r]) = accumulate f (consolidate f l) r.1 r.2 := by
      simp [consolidate]
    rw [hstep, valuesAt_append]
    by_cases h : r.1 = k
    · subst h
      rw [mem_accumulate_self (nodup_consolidate f l), if_pos rfl, chain_append]
      have hkey : r.1 ∈ (consolidate f l).map Prod.fst ↔ chain f (valuesAt l r.1) ≠ none := by
        rw [mem_map, Option.ne_none_iff_exists']
        constructor
        · rintro ⟨⟨k, c⟩, hc, rfl⟩
          exact ⟨c, ih.mp hc⟩
        · rintro ⟨c, hc⟩
          exact ⟨(r.1, c), ih.mpr hc, rfl⟩
      cases hc : chain f (valuesAt l r.1) with
      | none => simp [hkey, hc, ih, eq_comm]
      | some c => simp [hkey, hc, ih, eq_comm]
    · rw [if_neg h, mem_accumulate_ne (fun e => h e.symm), ih]

end

end Consolidate

section Upsert
variable {ρ κ : Type} [DecidableEq κ] (key : ρ → Option κ)

/-- The row `row` carries the key of `r`. -/
def Matches (r row : ρ) : Prop := (key r).isSome ∧ key row = key r

instance (r row : ρ) : Decidable (Matches key r row) := by unfold Matches; infer_instance

/-- Replace the rows that carry the key of `r`, or append `r`. -/
def upsert (rows : List ρ) (r : ρ) : List ρ :=
  if ∃ row ∈ rows, Matches key r row then rows.map fun row => if Matches key r row then r else row
  else rows ++ [r]

/-- No key of `rs` is written twice or was there in `rows`. -/
def Fresh (rows rs : List ρ) : Prop :=
  (∀ r ∈ rs, ∀ row ∈ rows, ¬ Matches key r row) ∧ rs.Pairwise fun r r' => ¬ Matches key r' r

variable {rows : List ρ} {r : ρ} {row : ρ}

theorem mem_upsert (h : row ∈ upsert key rows r) : row ∈ rows ∨ row = r := by
  unfold upsert at h
  split_ifs at h
  · obtain ⟨x, hx, rfl⟩ := mem_map.mp h
    split_ifs
    · exact .inr rfl
    · exact .inl hx
  · rcases mem_append.mp h with h | h
    · exact .inl h
    · exact .inr (mem_singleton.mp h)

theorem length_upsert_le (rows : List ρ) (r : ρ) : (upsert key rows r).length ≤ rows.length + 1 := by
  unfold upsert
  split_ifs <;> simp

theorem length_foldl_upsert_le (rows rs : List ρ) :
    (rs.foldl (upsert key) rows).length ≤ rows.length + rs.length := by
  induction rs generalizing rows with
  | nil => simp
  | cons r rs ih =>
    have h1 := ih (upsert key rows r)
    have h2 := length_upsert_le key rows r
    simp only [foldl_cons, length_cons]
    omega

variable {key}

theorem upsert_of_not (h : ∀ row ∈ rows, ¬ Matches key r row) : upsert key rows r = rows ++ [r] := by
  unfold upsert
  rw [if_neg (by push Not; exact h)]

/-- **An upsert keeps the keys unique.** -/
theorem nodup_upsert (h : (rows.filterMap key).Nodup) (r : ρ) :
    ((upsert key rows r).filterMap key).Nodup := by
  unfold upsert
  split_ifs with hex
  · rw [filterMap_map]
    have hkey : key ∘ (fun row => if Matches key r row then r else row) = key := by
      funext row
      rw [Function.comp_apply]
      split_ifs with hm
      · exact hm.2.symm
      · rfl
    rwa [hkey]
  · rw [filterMap_append]
    refine h.append ?_ ?_
    · cases hk : key r <;> simp [hk]
    · intro k hk hr
      obtain ⟨row, hrow, hkey⟩ := mem_filterMap.mp hk
      have hkr : key r = some k := by simpa using hr
      exact hex ⟨row, hrow, by rw [hkr]; rfl, hkey.trans hkr.symm⟩

theorem length_upsert_of (hr : row ∈ rows) (h : Matches key r row) :
    (upsert key rows r).length = rows.length := by
  unfold upsert
  rw [if_pos ⟨row, hr, h⟩, length_map]

variable {rs : List ρ}

omit [DecidableEq κ] in
theorem fresh_cons : Fresh key rows (r :: rs) ↔
      (∀ row ∈ rows, ¬ Matches key r row) ∧ Fresh key (rows ++ [r]) rs := by
  unfold Fresh
  simp only [mem_cons, forall_eq_or_imp, pairwise_cons, mem_append, not_mem_nil, or_false]
  constructor
  · rintro ⟨⟨h1, h2⟩, h3, h4⟩
    exact ⟨h1, fun r' hr' row hrow => hrow.elim (h2 r' hr' row) (fun e => e ▸ h3 r' hr'), h4⟩
  · rintro ⟨h1, h2, h4⟩
    exact ⟨⟨h1, fun r' hr' row hrow => h2 r' hr' row (Or.inl hrow)⟩,
      fun r' hr' => h2 r' hr' r (Or.inr rfl), h4⟩

/-- **Rows with fresh keys are appended.** -/
theorem foldl_upsert (h : Fresh key rows rs) : rs.foldl (upsert key) rows = rows ++ rs := by
  induction rs generalizing rows with
  | nil => simp
  | cons r rs ih =>
    obtain ⟨h1, h2⟩ := fresh_cons.mp h
    rw [foldl_cons, upsert_of_not h1, ih h2]
    simp

/-- **The table grows by one row a write iff no write found a row with its key.** -/
theorem foldl_upsert_length_iff :
    (rs.foldl (upsert key) rows).length = rows.length + rs.length ↔ Fresh key rows rs := by
  constructor
  · intro h
    induction rs generalizing rows with
    | nil => exact ⟨by simp, List.Pairwise.nil⟩
    | cons r rs ih =>
      have hle := length_foldl_upsert_le key (upsert key rows r) rs
      simp only [foldl_cons, length_cons] at h
      have hnot : ∀ row ∈ rows, ¬ Matches key r row := by
        intro row hrow hm
        rw [length_upsert_of hrow hm] at hle
        omega
      rw [upsert_of_not hnot] at h
      refine fresh_cons.mpr ⟨hnot, ih ?_⟩
      simp only [length_append, length_cons, length_nil]
      omega
  · intro h
    rw [foldl_upsert h, length_append]

end Upsert

section Lookup
variable {κ α κ' : Type} [BEq κ] [LawfulBEq κ] [BEq κ'] [LawfulBEq κ']

theorem lookup_cons_ne {k j : κ} (h : k ≠ j) (a : α) (l : List (κ × α)) :
    ((j, a) :: l).lookup k = l.lookup k := by
  rw [lookup_cons, beq_false_of_ne h]

section
variable [DecidableEq κ] (l : List (κ × α))

/-- Replacing, or appending, as a lookup sees it. -/
theorem lookup_accumulate (k : κ) (a : α) (k' : κ) :
    (accumulate (fun _ new => new) l k a).lookup k' = if k' = k then some a else l.lookup k' := by
  induction l with
  | nil =>
    rw [accumulate]
    split_ifs with h
    · rw [h, lookup_cons_self]
    · exact lookup_cons_ne h a []
  | cons r l ih =>
    obtain ⟨j, b⟩ := r
    unfold accumulate
    split_ifs with hj h h
    · rw [hj, h, lookup_cons_self]
    · rw [hj, lookup_cons_ne h, lookup_cons_ne h]
    · rw [h] at ih ⊢
      rw [lookup_cons_ne (Ne.symm hj), ih, if_pos rfl]
    · rw [if_neg h] at ih
      by_cases hkj : k' = j
      · rw [hkj, lookup_cons_self, lookup_cons_self]
      · rw [lookup_cons_ne hkj, ih, lookup_cons_ne hkj]

theorem lookup_filter_ne (k k' : κ) :
    (l.filter fun r => r.1 ≠ k).lookup k' = if k' = k then none else l.lookup k' := by
  induction l with
  | nil => simp
  | cons r l ih =>
    obtain ⟨j, b⟩ := r
    by_cases hj : j = k
    · rw [filter_cons_of_neg (by simp [hj]), ih, hj]
      split_ifs with h
      · rfl
      · rw [lookup_cons_ne h]
    · rw [filter_cons_of_pos (by simp [hj])]
      by_cases hkj : k' = j
      · rw [hkj, lookup_cons_self, if_neg hj, lookup_cons_self]
      · rw [lookup_cons_ne hkj, lookup_cons_ne hkj, ih]

end

variable {g : κ → κ'}

theorem lookup_map_key (hg : Function.Injective g) (l : List (κ × α)) (k : κ) :
    (l.map fun r => (g r.1, r.2)).lookup (g k) = l.lookup k := by
  induction l with
  | nil => rfl
  | cons r l ih =>
    obtain ⟨j, b⟩ := r
    rw [map_cons]
    by_cases h : k = j
    · rw [h, lookup_cons_self, lookup_cons_self]
    · rw [lookup_cons_ne h, lookup_cons_ne (hg.ne h), ih]

theorem lookup_eq_of_perm {l l' : List (κ × α)} (h : l.Perm l') (hnd : (l.map Prod.fst).Nodup) (k : κ) :
    l.lookup k = l'.lookup k := by
  have hnd' : (l'.map Prod.fst).Nodup := (h.map Prod.fst).nodup_iff.mp hnd
  ext a
  rw [Assoc.lookup_eq_some_iff hnd, Assoc.lookup_eq_some_iff hnd', h.mem_iff]

omit [BEq κ] [LawfulBEq κ] [BEq κ'] [LawfulBEq κ'] in
theorem map_accumulate [DecidableEq κ] [DecidableEq κ'] (hg : Function.Injective g) (f : α → α → α) (l : List (κ × α))
    (k : κ) (a : α) : (accumulate f l k a).map (fun r => (g r.1, r.2)) =
      accumulate f (l.map fun r => (g r.1, r.2)) (g k) a := by
  induction l with
  | nil => rfl
  | cons r l ih =>
    obtain ⟨j, b⟩ := r
    rw [map_cons]
    unfold accumulate
    by_cases hj : j = k
    · rw [if_pos hj, if_pos (congrArg g hj)]
      rfl
    · rw [if_neg hj, if_neg (hg.ne hj), map_cons, ih]

end Lookup

/-- Rows with their own keys, all below `n`. -/
structure Below {α : Type*} (key : α → ℕ) (l : List α) (n : ℕ) : Prop where
  nodup : (l.map key).Nodup
  lt : ∀ x ∈ l, key x < n

theorem Below.append {α : Type*} {key : α → ℕ} {l : List α} {n : ℕ} (h : Below key l n) {a : α}
    (ha : key a = n) : Below key (l ++ [a]) (n + 1) where
  nodup := by
    rw [map_append, map_singleton, ← concat_eq_append, nodup_concat]
    refine ⟨fun hmem => ?_, h.nodup⟩
    obtain ⟨x, hx, he⟩ := mem_map.mp hmem
    exact (h.lt x hx).ne (he.trans ha)
  lt := forall_mem_append.mpr
    ⟨fun x hx => Nat.lt_succ_of_lt (h.lt x hx), forall_mem_singleton.mpr (ha ▸ Nat.lt_succ_self _)⟩

/-- Looking an element up by a key column. -/
theorem find?_key {α κ : Type*} [DecidableEq κ] {key : α → κ} {l : List α} (hnd : (l.map key).Nodup)
    {a : α} (ha : a ∈ l) : (l.find? fun x => key x = key a) = some a := by
  rw [find?_eq_some_iff_append]
  obtain ⟨as, bs, hab⟩ := append_of_mem ha
  refine ⟨by simp, as, bs, hab, fun x hx => ?_⟩
  rw [hab, map_append, nodup_append] at hnd
  have := hnd.2.2 (key x) (mem_map_of_mem hx) (key a) (by simp)
  simpa using this

/-- Where a partial key is never repeated, one element carries it. -/
theorem filter_eq_singleton {α β : Type} [DecidableEq β] {f : α → Option β} {l : List α}
    (hl : (l.filterMap f).Nodup) {a : α} {b : β} (ha : a ∈ l) (hb : f a = some b) :
    (l.filter fun x => f x = some b) = [a] := by
  obtain ⟨l₁, l₂, rfl⟩ := append_of_mem ha
  rw [filterMap_append, filterMap_cons_some hb, nodup_append, nodup_cons] at hl
  have hleft : ∀ x ∈ l₁, ¬ f x = some b := fun x hx e =>
    hl.2.2 b (mem_filterMap.mpr ⟨x, hx, e⟩) b mem_cons_self rfl
  have hright : ∀ x ∈ l₂, ¬ f x = some b := fun x hx e => hl.2.1.1 (mem_filterMap.mpr ⟨x, hx, e⟩)
  rw [filter_append, filter_cons_of_pos (by simpa using hb), filter_eq_nil_iff.mpr (by simpa using hleft),
    filter_eq_nil_iff.mpr (by simpa using hright), nil_append]

end XChainIndexer.Lib.Keyed
