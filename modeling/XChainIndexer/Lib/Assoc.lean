import Mathlib.Tactic

/-! # Association lists and sums over their keys

A list of pairs read by `List.lookup`. If no key is listed twice, an entry is found exactly when it
is listed (`lookup_eq_some_iff`), and a sum over the entries is a sum over the keys
(`sum_map_eq_sum_keys`); a sum over the keys of one list that only counts keys of another is a sum
over the keys of the other (`sum_keys_eq`). -/

namespace XChainIndexer.Lib.Assoc

open List

variable {α β : Type}

/-! ### Lists built from their keys -/

theorem map_fst_filterMap (l : List α) (f : α → Option β) :
    (l.filterMap fun a => (f a).map (a, ·)).map Prod.fst = l.filter fun a => (f a).isSome := by
  induction l with
  | nil => rfl
  | cons a l ih => cases h : f a <;> simp [h, ih]

variable {l : List α}

theorem nodup_keys_filterMap (hl : l.Nodup) (f : α → Option β) :
    ((l.filterMap fun a => (f a).map (a, ·)).map Prod.fst).Nodup := by
  rw [map_fst_filterMap]
  exact hl.filter _

variable {a : α} {b : β}

theorem mem_filterMap_keyed {f : α → Option β} :
    (a, b) ∈ (l.filterMap fun a => (f a).map (a, ·)) ↔ a ∈ l ∧ f a = some b := by
  simp only [mem_filterMap, Option.map_eq_some_iff, Prod.mk.injEq]
  constructor
  · rintro ⟨_, hm, _, hf, rfl, rfl⟩
    exact ⟨hm, hf⟩
  · rintro ⟨hm, hf⟩
    exact ⟨a, hm, b, hf, rfl, rfl⟩

theorem map_fst_zip_sublist (l : List α) (l' : List β) : ((l.zip l').map Prod.fst).Sublist l := by
  induction l generalizing l' with
  | nil => simp
  | cons a l ih =>
    cases l' with
    | nil => simp
    | cons b l' => simpa using ih l'

/-! ### Lookups -/

variable {l : List (α × β)}

section

variable [BEq α] [LawfulBEq α]

theorem mem_of_lookup (h : l.lookup a = some b) : (a, b) ∈ l := by
  obtain ⟨l₁, l₂, rfl, -⟩ := lookup_eq_some_iff.mp h
  simp

theorem lookup_eq_some_iff (hl : (l.map Prod.fst).Nodup) : l.lookup a = some b ↔ (a, b) ∈ l := by
  refine ⟨mem_of_lookup, fun h => ?_⟩
  obtain ⟨l₁, l₂, rfl⟩ := append_of_mem h
  refine lookup_eq_some_iff.mpr ⟨l₁, l₂, rfl, fun p hp => ?_⟩
  rw [map_append, nodup_append] at hl
  have hne := hl.2.2 p.1 (mem_map_of_mem hp) a (by simp)
  simpa using fun e : a = p.1 => hne e.symm

end

variable [DecidableEq α]

/-- The keys listed. -/
def keys (l : List (α × β)) : Finset α := (l.map Prod.fst).toFinset

theorem mem_keys : a ∈ keys l ↔ ∃ b, (a, b) ∈ l := by
  simp [keys]

theorem lookup_eq_none_iff : l.lookup a = none ↔ a ∉ keys l := by
  rw [List.lookup_eq_none_iff, mem_keys]
  refine ⟨fun h ⟨b, hb⟩ => by simpa using h _ hb, fun h p hp => ?_⟩
  simpa using fun e : a = p.1 => h ⟨p.2, by rw [e]; exact hp⟩

theorem isSome_lookup_iff : (l.lookup a).isSome ↔ a ∈ keys l := by
  rw [← not_iff_not, Bool.not_eq_true, Option.isSome_eq_false_iff, Option.isNone_iff_eq_none,
    lookup_eq_none_iff]

/-! ### Sums -/

variable {M : Type} [AddCommMonoid M] {f : α → M}

theorem sum_map_eq_sum_keys (hl : (l.map Prod.fst).Nodup) {g : α × β → M}
    (h : ∀ e ∈ l, g e = f e.1) : (l.map g).sum = ∑ k ∈ keys l, f k := by
  unfold keys
  rw [sum_toFinset f hl, map_map]
  exact congrArg List.sum (map_congr_left h)

/-- A sum over keys that counts nothing outside of both lists. -/
theorem sum_keys_eq {γ : Type} {l' : List (α × γ)} (h : ∀ k, k ∉ keys l → f k = 0)
    (h' : ∀ k, k ∉ keys l' → f k = 0) : ∑ k ∈ keys l, f k = ∑ k ∈ keys l', f k := by
  have hunion : ∀ s : Finset α, (∀ k, k ∉ s → f k = 0) →
      ∑ k ∈ s, f k = ∑ k ∈ keys l ∪ keys l' ∪ s, f k := fun s hs =>
    Finset.sum_subset Finset.subset_union_right fun k _ hk => hs k hk
  rw [hunion _ h, hunion _ h']
  congr 1
  ext k
  simp only [Finset.mem_union]
  tauto

end XChainIndexer.Lib.Assoc
