import Mathlib.Data.List.Nodup

/-! # Registers of exclusive holders

A register says who holds each key and who has a live claim on it. It is exact when the two agree: a
key is held exactly while there is a live claim on it, by the claimant. A claim is taken on a key that
nobody holds and dropped with the key it holds; both keep a register exact (`Exact.take`,
`Exact.drops`), also when the claims of other tables stand beside it (`Drops.beside`). `claims` are the
claims of the rows of a table that is written by its index column. -/

namespace XChainIndexer.Lib.Holder

open List

structure Register (K I : Type*) where
  holder : K → Option I
  live : K → I → Prop

variable {K I : Type*}

/-- Held exactly while claimed, by the claimant. -/
def Register.Exact (r : Register K I) : Prop := ∀ k i, r.holder k = some i ↔ r.live k i

/-- The same holders and claims. -/
structure Register.Same (r r' : Register K I) : Prop where
  holder : ∀ k, r'.holder k = r.holder k
  live : ∀ k i, r'.live k i ↔ r.live k i

variable {r r' : Register K I}

theorem Register.Same.exact (h : r.Same r') (he : r.Exact) : r'.Exact := by
  intro k i
  rw [h.holder, h.live]
  exact he k i

variable {k : K}

theorem Register.Exact.unique (h : r.Exact) {i j : I} (hi : r.live k i) (hj : r.live k j) : i = j := by
  have hi' := (h k i).mpr hi
  rw [(h k j).mpr hj, Option.some.injEq] at hi'
  exact hi'.symm

/-- The claimants of a key, listed without repetition, are its holder. -/
theorem Register.Exact.eq_toList (h : r.Exact) {l : List I} (hnd : l.Nodup)
    (hl : ∀ i, i ∈ l ↔ r.live k i) : l = (r.holder k).toList := by
  cases hk : r.holder k with
  | none =>
    refine eq_nil_iff_forall_not_mem.mpr fun i hi => ?_
    have := (h k i).mpr ((hl i).mp hi)
    rw [hk] at this
    simp at this
  | some i =>
    have hi := (hl i).mpr ((h k i).mp hk)
    have hall : ∀ j ∈ l, j = i := fun j hj => h.unique ((hl j).mp hj) ((h k i).mp hk)
    obtain ⟨n, hn⟩ : ∃ n, l = List.replicate n i := ⟨_, eq_replicate_of_mem hall⟩
    subst hn
    have hle := nodup_replicate.mp hnd
    have hpos := length_pos_of_mem hi
    rw [length_replicate] at hpos
    rw [show n = 1 by omega]
    rfl

section

variable [DecidableEq K]

/-- `i` claims `k` and holds it. -/
def Register.take (r : Register K I) (k : K) (i : I) : Register K I where
  holder := fun k' => if k' = k then some i else r.holder k'
  live := fun k' i' => r.live k' i' ∨ (k' = k ∧ i' = i)

/-- `i` gives up its claim on `k`, and `k` is free. -/
def Register.drop (r : Register K I) (k : K) (i : I) : Register K I where
  holder := fun k' => if k' = k then none else r.holder k'
  live := fun k' i' => r.live k' i' ∧ ¬ (k' = k ∧ i' = i)

variable {i : I}

theorem Register.Exact.take (h : r.Exact) (hk : r.holder k = none) : (r.take k i).Exact := by
  intro k' i'
  show (if k' = k then some i else r.holder k') = some i' ↔ r.live k' i' ∨ (k' = k ∧ i' = i)
  by_cases hkk : k' = k
  · subst hkk
    have hno : ¬ r.live k' i' := fun hl => by
      rw [← h, hk] at hl
      simp at hl
    rw [if_pos rfl, Option.some.injEq]
    constructor
    · rintro rfl
      exact .inr ⟨rfl, rfl⟩
    · rintro (hl | hl)
      · exact absurd hl hno
      · exact hl.2.symm
  · rw [if_neg hkk, h]
    tauto

theorem Register.Exact.drop (h : r.Exact) (hi : r.live k i) : (r.drop k i).Exact := by
  intro k' i'
  show (if k' = k then none else r.holder k') = some i' ↔ r.live k' i' ∧ ¬ (k' = k ∧ i' = i)
  by_cases hkk : k' = k
  · subst hkk
    constructor
    · intro hno
      simp at hno
    · rintro ⟨hl, hne⟩
      exact absurd ⟨rfl, h.unique hl hi⟩ hne
  · rw [if_neg hkk, h]
    tauto

/-- `r'` is `r` after some claims were dropped. -/
inductive Drops : Register K I → Register K I → Prop
  | same {a b : Register K I} (h : a.Same b) : Drops a b
  | drop {a b : Register K I} {k : K} {i : I} (hi : a.live k i) (h : Drops (a.drop k i) b) : Drops a b

theorem Register.Exact.drops (h : r.Exact) (hd : Drops r r') : r'.Exact := by
  induction hd with
  | same hs => exact hs.exact h
  | drop hi _ ih => exact ih (h.drop hi)

/-- The only claim of `i` is gone and its key is free. -/
theorem Drops.of_shut (hi : r.live k i) (hone : ∀ k', r.live k' i → k' = k)
    (hh : ∀ k', r'.holder k' = if k' = k then none else r.holder k')
    (hl : ∀ k' j, r'.live k' j ↔ r.live k' j ∧ j ≠ i) : Drops r r' := by
  refine .drop hi (.same ⟨hh, fun k' j => (hl k' j).trans (and_congr_right fun hlive => ?_)⟩)
  constructor
  · exact fun hne h => hne h.2
  · rintro hne rfl
    exact hne ⟨hone k' hlive, rfl⟩

/-- The claims of another table beside those of a register. -/
def Register.beside (r : Register K I) (c : K → I → Prop) : Register K I where
  holder := r.holder
  live := fun k i => r.live k i ∨ c k i

theorem Drops.of_same {r₀ : Register K I} (hs : r₀.Same r) (hd : Drops r r') : Drops r₀ r' := by
  induction hd generalizing r₀ with
  | same h => exact .same ⟨fun k => (h.holder k).trans (hs.holder k), fun k i =>
      (h.live k i).trans (hs.live k i)⟩
  | @drop r r' k i hi _ ih =>
    refine .drop ((hs.live k i).mp hi) (ih ⟨fun k' => ?_, fun k' i' => ?_⟩)
    · show (if k' = k then none else r.holder k') = if k' = k then none else r₀.holder k'
      rw [hs.holder]
    · show r.live k' i' ∧ _ ↔ r₀.live k' i' ∧ _
      rw [hs.live]

theorem Drops.trans {r'' : Register K I} (h : Drops r r') (h' : Drops r' r'') : Drops r r'' := by
  induction h with
  | same hs => exact h'.of_same hs
  | drop hi _ ih => exact .drop hi (ih h')

/-- Dropping claims leaves those of other tables, when no claimant is in two tables. -/
theorem Drops.beside {c : K → I → Prop} (hd : Drops r r') (hc : ∀ k i, r.live k i → ¬ c k i) :
    Drops (r.beside c) (r'.beside c) := by
  induction hd with
  | same hs =>
    refine .same ⟨hs.holder, fun k i => ?_⟩
    show _ ∨ _ ↔ _ ∨ _
    rw [hs.live]
  | @drop r r' k i hi _ ih =>
    have hsame : ((r.beside c).drop k i).Same ((r.drop k i).beside c) := by
      refine ⟨fun _ => rfl, fun k' i' => ?_⟩
      show (r.live k' i' ∧ ¬ (k' = k ∧ i' = i)) ∨ c k' i' ↔ (r.live k' i' ∨ c k' i') ∧ ¬ (k' = k ∧ i' = i)
      have : k' = k ∧ i' = i → ¬ c k' i' := by
        rintro ⟨rfl, rfl⟩
        exact hc k' i' hi
      tauto
    exact .drop (Or.inl hi) ((ih fun k' i' hl => hc k' i' hl.1).of_same hsame)

end

/-! ### Claims of a table -/

section table

variable {A : Type*} {index : A → I} {claim : A → K → Prop}

/-- The claims of the rows of a table. -/
def claims (index : A → I) (claim : A → K → Prop) (l : List A) (k : K) (i : I) : Prop :=
  ∃ a ∈ l, index a = i ∧ claim a k

variable {l : List A} {i : I} {a : A}

theorem claims_append :
    claims index claim (l ++ [a]) k i ↔ claims index claim l k i ∨ (claim a k ∧ i = index a) := by
  constructor
  · rintro ⟨x, hx, rfl, hc⟩
    rw [mem_append, mem_singleton] at hx
    rcases hx with hx | rfl
    · exact .inl ⟨x, hx, rfl, hc⟩
    · exact .inr ⟨hc, rfl⟩
  · rintro (⟨x, hx, rfl, hc⟩ | ⟨hc, rfl⟩)
    · exact ⟨x, mem_append_left _ hx, rfl, hc⟩
    · exact ⟨a, mem_append_right _ (mem_singleton_self a), rfl, hc⟩

/-- Under a key column a row decides the claims of its index. -/
theorem claims_index (hnd : (l.map index).Nodup) (ha : a ∈ l) :
    claims index claim l k (index a) ↔ claim a k := by
  constructor
  · rintro ⟨x, hx, hi, hc⟩
    rwa [inj_on_of_nodup_map hnd hx ha hi] at hc
  · exact fun hc => ⟨a, ha, rfl, hc⟩

variable [DecidableEq I]

/-- Rewrite the row `i`. -/
def rewriteAt (index : A → I) (i : I) (f : A → A) (l : List A) : List A :=
  l.map fun a => if index a = i then f a else a

variable {f : A → A}

theorem map_index_rewriteAt (hf : ∀ a, index (f a) = index a) (l : List A) :
    (rewriteAt index i f l).map index = l.map index := by
  unfold rewriteAt
  rw [map_map]
  refine map_congr_left fun a _ => ?_
  simp only [Function.comp]
  split_ifs
  · exact hf a
  · rfl

/-- A rewritten row that keeps its claims. -/
theorem claims_rewriteAt (hf : ∀ a, index (f a) = index a)
    (hc : ∀ a ∈ l, index a = i → ∀ k, claim (f a) k ↔ claim a k) (k : K) (j : I) :
    claims index claim (rewriteAt index i f l) k j ↔ claims index claim l k j := by
  constructor
  · rintro ⟨x, hx, rfl, hcl⟩
    obtain ⟨a, ha, rfl⟩ := mem_map.mp hx
    refine ⟨a, ha, ?_⟩
    split_ifs at hcl ⊢ with hi
    · exact ⟨(hf a).symm, (hc a ha hi k).mp hcl⟩
    · exact ⟨rfl, hcl⟩
  · rintro ⟨a, ha, rfl, hcl⟩
    refine ⟨_, mem_map_of_mem ha, ?_⟩
    split_ifs with hi
    · exact ⟨hf a, (hc a ha hi k).mpr hcl⟩
    · exact ⟨rfl, hcl⟩

/-- A rewritten row that has no claims any more. -/
theorem claims_shut (hc : ∀ a k, ¬ claim (f a) k) (l : List A) (k : K) (j : I) :
    claims index claim (rewriteAt index i f l) k j ↔ claims index claim l k j ∧ j ≠ i := by
  constructor
  · rintro ⟨x, hx, rfl, hcl⟩
    obtain ⟨a, ha, rfl⟩ := mem_map.mp hx
    split_ifs at hcl ⊢ with hi
    · exact absurd hcl (hc a k)
    · exact ⟨⟨a, ha, rfl, hcl⟩, hi⟩
  · rintro ⟨⟨a, ha, rfl, hcl⟩, hi⟩
    exact ⟨_, mem_map_of_mem ha, by rw [if_neg hi], by rw [if_neg hi]; exact hcl⟩

end table

end XChainIndexer.Lib.Holder
