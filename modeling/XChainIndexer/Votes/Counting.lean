import XChainIndexer.Votes.Portions

/-! # Counting the ballots

`countBallots` adds the portions of every counted ballot to the options and its weight to the
counted weight. `tallied_foldl`: no option passes the counted weight, which is the exact sum of the
ballots' weights, and under the exact split rule the options together hold the weights of the
counted ballots that have a choice in range. -/

namespace XChainIndexer.Votes.Counting

open Lib.Decimal Lib.Assoc Bcmath Option Votes.PollTally Votes.Portions

/-! ### Adding one ballot -/

def weightAt (k : Counted) (i : ℕ) : ℚ := k.totals.getD i 0

variable {i : ℕ}

theorem weightAt_addPortion (k : Counted) (portion : ℕ × ℚ) (hi : i < k.totals.length) :
    weightAt (k.addPortion portion) i =
      if portion.1 = i then bcadd (weightAt k i) portion.2 18 else weightAt k i := by
  unfold weightAt Counted.addPortion
  simp only [List.getD_eq_getElem?_getD, List.getElem?_modify, List.getElem?_eq_getElem hi]
  split_ifs <;> simp

section
variable (portions : List (ℕ × ℚ)) (k : Counted)

@[simp] theorem length_foldl_addPortion :
    (portions.foldl Counted.addPortion k).totals.length = k.totals.length := by
  induction portions generalizing k with
  | nil => rfl
  | cons p ps ih =>
    rw [List.foldl_cons, ih]
    exact List.length_modify _ _ _

@[simp] theorem total_foldl_addPortion :
    (portions.foldl Counted.addPortion k).totalCountedWeight = k.totalCountedWeight := by
  induction portions generalizing k with
  | nil => rfl
  | cons p ps ih => rw [List.foldl_cons, ih]; rfl

end

theorem weightAt_foldl_addPortion {portions : List (ℕ × ℚ)} (hn : (portions.map Prod.fst).Nodup)
    (k : Counted) (hi : i < k.totals.length) : weightAt (portions.foldl Counted.addPortion k) i =
      (portions.lookup i).elim (weightAt k i) fun p => bcadd (weightAt k i) p 18 := by
  induction portions generalizing k with
  | nil => rfl
  | cons e ps ih =>
    obtain ⟨j, p⟩ := e
    rw [List.map_cons, List.nodup_cons] at hn
    have hlen : i < (k.addPortion (j, p)).totals.length := by
      rw [← length_foldl_addPortion [(j, p)] k] at hi
      exact hi
    rw [List.foldl_cons, ih hn.2 _ hlen, weightAt_addPortion k _ hi, List.lookup_cons]
    by_cases hj : j = i
    · -- the other portions are of other choices
      have hnone : ps.lookup i = none := by
        rw [lookup_eq_none_iff, keys, List.mem_toFinset, ← hj]
        exact hn.1
      simp [hj, hnone]
    · have hij : (i == j) = false := beq_eq_false_iff_ne.mpr fun h => hj h.symm
      simp [hj, hij]

/-- The options hold amounts of the grid, none above the counted weight. -/
structure Tallied (count : ℕ) (k : Counted) (total : ℚ) : Prop where
  length : k.totals.length = count
  total_eq : k.totalCountedWeight = total
  nonneg : 0 ≤ total
  onGrid_total : OnGrid 18 total
  onGrid : ∀ i < count, OnGrid 18 (weightAt k i)
  le : ∀ i < count, weightAt k i ≤ total
  ge : ∀ i < count, -(count * total) ≤ weightAt k i

@[simp] theorem weightAt_start (count i : ℕ) : weightAt (.start count) i = 0 := by
  unfold weightAt Counted.start
  rw [List.getD_eq_getElem?_getD, List.getElem?_replicate]
  split_ifs <;> rfl

theorem tallied_start (count : ℕ) : Tallied count (.start count) 0 where
  length := List.length_replicate
  total_eq := rfl
  nonneg := le_rfl
  onGrid_total := onGrid_zero 18
  onGrid i _ := by rw [weightAt_start]; exact onGrid_zero 18
  le i _ := (weightAt_start count i).le
  ge i _ := by rw [weightAt_start, mul_zero, neg_zero]

/-- The counts with a ballot's portions and weight added. -/
def addBallot (k : Counted) (portions : List (ℕ × ℚ)) (weight : ℚ) : Counted :=
  { portions.foldl Counted.addPortion k with
    totalCountedWeight := bcadd (portions.foldl Counted.addPortion k).totalCountedWeight weight 18 }

section Step

variable {count : ℕ} {k : Counted} {total weight : ℚ} {portions : List (ℕ × ℚ)}
  (h : Tallied count k total) (hp : Portioned count weight portions)
  (hrange : (count + 1) * (total + weight) < 10 ^ 42)
include h hp hrange

theorem weightAt_addBallot (hi : i < count) :
    weightAt (addBallot k portions weight) i = weightAt k i + (portions.lookup i).getD 0 := by
  have heq := weightAt_foldl_addPortion hp.nodup k (h.length ▸ hi)
  show weightAt (portions.foldl Counted.addPortion k) i = _
  rw [heq]
  cases hl : portions.lookup i with
  | none => simp
  | some p =>
    have hmem := mem_of_lookup hl
    refine bcadd_of_onGrid le_rfl (h.onGrid i hi) (hp.onGrid _ hmem) ?_
    have h1 := h.le i hi
    have h2 := h.ge i hi
    have h3 := hp.le _ hmem
    have h4 := hp.ge _ hmem
    rw [abs_lt]
    constructor <;> nlinarith

theorem Tallied.addBallot (hw : OnGrid 18 weight) (hw0 : 0 ≤ weight) :
    Tallied count (addBallot k portions weight) (total + weight) where
  length := (length_foldl_addPortion portions k).trans h.length
  total_eq := by
    have hc : 0 ≤ (count : ℚ) * (total + weight) :=
      mul_nonneg (Nat.cast_nonneg _) (add_nonneg h.nonneg hw0)
    show bcadd _ weight 18 = _
    rw [total_foldl_addPortion, h.total_eq]
    refine bcadd_of_onGrid le_rfl h.onGrid_total hw ?_
    rw [abs_of_nonneg (add_nonneg h.nonneg hw0)]
    linarith
  nonneg := add_nonneg h.nonneg hw0
  onGrid_total := h.onGrid_total.add hw
  onGrid i hi := by
    rw [weightAt_addBallot h hp hrange hi]
    cases hl : portions.lookup i with
    | none => simpa using h.onGrid i hi
    | some p => exact (h.onGrid i hi).add (hp.onGrid _ (mem_of_lookup hl))
  le i hi := by
    rw [weightAt_addBallot h hp hrange hi]
    have hle := h.le i hi
    cases hl : portions.lookup i with
    | none => rw [getD_none]; linarith
    | some p =>
      have := hp.le _ (mem_of_lookup hl)
      rw [getD_some]
      linarith
  ge i hi := by
    rw [weightAt_addBallot h hp hrange hi]
    have hge := h.ge i hi
    have hcw : 0 ≤ (count : ℚ) * weight := mul_nonneg (Nat.cast_nonneg _) hw0
    cases hl : portions.lookup i with
    | none => rw [getD_none]; linarith
    | some p =>
      have := hp.ge _ (mem_of_lookup hl)
      rw [getD_some]
      linarith

theorem sum_weightAt_addBallot : ∑ i ∈ Finset.range count, weightAt (addBallot k portions weight) i =
      ∑ i ∈ Finset.range count, weightAt k i + (portions.map Prod.snd).sum := by
  have hportions : (portions.map Prod.snd).sum = ∑ i ∈ Finset.range count, (portions.lookup i).getD 0 := by
    rw [sum_map_eq_sum_keys hp.nodup (f := fun i => (portions.lookup i).getD 0) fun e he => by
      rw [(lookup_eq_some_iff hp.nodup).mpr he, getD_some]]
    refine Finset.sum_subset (fun i hi => ?_) fun i _ hi => ?_
    · obtain ⟨p, hmem⟩ := mem_keys.mp hi
      exact Finset.mem_range.mpr (hp.lt _ hmem)
    · rw [lookup_eq_none_iff.mpr hi, getD_none]
  rw [hportions, ← Finset.sum_add_distrib]
  exact Finset.sum_congr rfl fun i hi =>
    weightAt_addBallot h hp hrange (Finset.mem_range.mp hi)

end Step

/-! ### All ballots -/

/-- The weight a ballot is counted with: none if its voter no longer holds, or its shares add up to
nothing. -/
def Count.counted (c : Count) (ballot : Address × List Pick) : Option ℚ :=
  (c.ballotWeight ballot.1).bind fun weight => (c.portions weight ballot.2).map fun _ => weight

section
variable {c : Count} {ballot : Address × List Pick}

theorem countBallot_of_none
    (h : Count.counted c ballot = none) (k : Counted) : (c.countBallot k ballot).totals = k.totals ∧
      (c.countBallot k ballot).totalCountedWeight = k.totalCountedWeight := by
  unfold Count.counted at h
  unfold Count.countBallot
  cases hw : c.ballotWeight ballot.1 with
  | none => exact ⟨rfl, rfl⟩
  | some weight =>
    rw [hw, bind_some, map_eq_none_iff] at h
    simp [h]

theorem countBallot_of_some {weight : ℚ}
    (h : Count.counted c ballot = some weight) (k : Counted) : c.ballotWeight ballot.1 = some weight ∧
      ∃ portions n, c.portions weight ballot.2 = some portions ∧
        c.countBallot k ballot = addBallot { k with qualifyingVoters := n } portions weight := by
  obtain ⟨w, hw, h⟩ := bind_eq_some_iff.mp h
  obtain ⟨portions, hp, rfl⟩ := map_eq_some_iff.mp h
  refine ⟨hw, portions, k.qualifyingVoters + (c.qualifies ballot.1).toNat, hp, ?_⟩
  unfold Count.countBallot
  simp only [hw, hp]
  rfl

end

variable {total : ℚ}

theorem Tallied.congr {count : ℕ} {k k' : Counted} (h : Tallied count k total)
    (ht : k'.totals = k.totals) (hw : k'.totalCountedWeight = k.totalCountedWeight) :
    Tallied count k' total := by
  have hat : ∀ i, weightAt k' i = weightAt k i := fun i => by unfold weightAt; rw [ht]
  exact ⟨ht ▸ h.length, hw ▸ h.total_eq, h.nonneg, h.onGrid_total,
    fun i hi => hat i ▸ h.onGrid i hi, fun i hi => hat i ▸ h.le i hi, fun i hi => hat i ▸ h.ge i hi⟩

/-- The counted weight, whatever the portions of the ballots are. -/
theorem total_foldl_countBallot (c : Count) (ballots : List (Address × List Pick)) (k : Counted) :
    (ballots.foldl c.countBallot k).totalCountedWeight =
      (ballots.filterMap (Count.counted c)).foldl (fun sum w => bcadd sum w 18) k.totalCountedWeight := by
  induction ballots generalizing k with
  | nil => rfl
  | cons b bs ih =>
    rw [List.foldl_cons, ih]
    cases hc : Count.counted c b with
    | none => rw [List.filterMap_cons_none hc, (countBallot_of_none hc k).2]
    | some weight =>
      obtain ⟨-, portions, n, -, heq⟩ := countBallot_of_some hc k
      rw [List.filterMap_cons_some hc, List.foldl_cons, heq]
      unfold addBallot
      rw [total_foldl_addPortion]

/-- **Counting all ballots.** -/
theorem tallied_foldl (c : Count) {ballots : List (Address × List Pick)} {k : Counted}
    (h : Tallied c.optionCount k total)
    (hb : ∀ b ∈ ballots, ∀ w, c.ballotWeight b.1 = some w → Regular c b.2 ∧ OnGrid 18 w ∧ 0 ≤ w)
    (hrange : (c.optionCount + 1) * (total + (ballots.filterMap (Count.counted c)).sum) < 10 ^ 42) :
    Tallied c.optionCount (ballots.foldl c.countBallot k)
        (total + (ballots.filterMap (Count.counted c)).sum) ∧ (c.tally_mode = .split → c.exactSplit →
        ∑ i ∈ Finset.range c.optionCount, weightAt (ballots.foldl c.countBallot k) i =
          ∑ i ∈ Finset.range c.optionCount, weightAt k i +
            ((ballots.filter fun b => Count.inRange c b.2).filterMap (Count.counted c)).sum) := by
  induction ballots generalizing k total with
  | nil => simpa using h
  | cons b bs ih =>
    have hbs := fun b' hb' => hb b' (List.mem_cons_of_mem b hb')
    cases hc : Count.counted c b with
    | none =>
      -- a ballot without weight or portions leaves every weight
      obtain ⟨ht, hw⟩ := countBallot_of_none hc k
      rw [List.filterMap_cons_none hc] at hrange ⊢
      obtain ⟨h1, h2⟩ := ih (h.congr ht hw) hbs hrange
      refine ⟨h1, fun hs he => (h2 hs he).trans ?_⟩
      have hat : ∀ i, weightAt (c.countBallot k b) i = weightAt k i := fun i => by
        unfold weightAt; rw [ht]
      simp only [hat, List.filter_cons]
      split_ifs
      · rw [List.filterMap_cons_none hc]
      · rfl
    | some weight =>
      obtain ⟨hw, portions, n, hp, heq⟩ := countBallot_of_some hc k
      obtain ⟨hreg, hgrid, hw0⟩ := hb b (by simp) weight hw
      have hsum : 0 ≤ (bs.filterMap (Count.counted c)).sum := by
        refine List.sum_nonneg fun x hx => ?_
        obtain ⟨b', hb', hx⟩ := List.mem_filterMap.mp hx
        exact (hbs b' hb' x (countBallot_of_some hx k).1).2.2
      rw [List.filterMap_cons_some hc, List.sum_cons, ← add_assoc] at hrange ⊢
      have hnow : ((c.optionCount : ℚ) + 1) * (total + weight) < 10 ^ 42 := by
        refine lt_of_le_of_lt (mul_le_mul_of_nonneg_left ?_ (by positivity)) hrange
        linarith
      have hcw : ((c.optionCount : ℚ) + 1) * weight < 10 ^ 42 := by
        have : 0 ≤ ((c.optionCount : ℚ) + 1) * total := mul_nonneg (by positivity) h.nonneg
        linarith
      have hfits : Fits 18 weight := by
        refine ⟨hgrid, ?_⟩
        have : 0 ≤ (c.optionCount : ℚ) * weight := mul_nonneg (Nat.cast_nonneg _) hw0
        rw [abs_of_nonneg hw0]
        linarith
      have hportioned := portioned hfits hw0 hreg hcw hp
      have hk : Tallied c.optionCount { k with qualifyingVoters := n } total := h.congr rfl rfl
      have hnext := hk.addBallot hportioned hnow hgrid hw0
      rw [← heq] at hnext
      obtain ⟨h1, h2⟩ := ih hnext hbs hrange
      refine ⟨h1, fun hs he => (h2 hs he).trans ?_⟩
      rw [heq, sum_weightAt_addBallot hk hportioned hnow,
        sum_portions hfits hw0 hreg hcw hp hs he, List.filter_cons]
      by_cases hr : Count.inRange c b.2 = true
      · rw [if_pos hr, if_pos hr, List.filterMap_cons_some hc, List.sum_cons, ← add_assoc]
        rfl
      · rw [if_neg hr, if_neg hr, add_zero]
        rfl

end XChainIndexer.Votes.Counting
