import XChainIndexer.Staking.Keys

/-! # The cap on the sources

The stake-weight map keeps the first `N` sources in the order of their addresses, and of each its first
keys; how many keys a source has does not matter to the others (`cap_noninterference`). A source that
meets the minimum with no key left that signs has no row, so it does not count until it has one
(`first_key_displaces`). -/

namespace XChainIndexer.Staking.Capped

open Lib.Run Lib.SumOver Lib.Window List Staking.Tables Staking.Reads Staking.Capability

/-! ### The rows within the cap -/

section cap

variable {R : Rules} {h maxSources maxKeys : ℕ} {rows : List Weight} {w : Weight}

/-- The sources of the rows, by the order of their addresses. -/
def ranked (R : Rules) (h : ℕ) (rows : List Weight) : Finset ℕ :=
  parts (fun w => R.addressOrder h w.source) rows

theorem mem_cappedStakeWeights : w ∈ cappedStakeWeights R h rows maxSources maxKeys ↔
    w ∈ rows ∧ sourceRank R h rows w ≤ maxSources + 1 ∧
      rowNumber (fun w => R.addressOrder h w.source) Weight.key rows w ≤ maxKeys := by
  simp [cappedStakeWeights]

theorem mem_capSources : w ∈ (capSources R h rows maxSources maxKeys).1 ↔
    w ∈ rows ∧ sourceRank R h rows w ≤ maxSources ∧
      rowNumber (fun w => R.addressOrder h w.source) Weight.key rows w ≤ maxKeys := by
  unfold capSources
  dsimp only
  split_ifs with htruncated
  · rw [mem_filter, mem_cappedStakeWeights, decide_eq_true_eq]
    constructor
    · rintro ⟨⟨hw, -, hkey⟩, hrank⟩
      exact ⟨hw, hrank, hkey⟩
    · rintro ⟨hw, hrank, hkey⟩
      exact ⟨⟨hw, hrank.trans (Nat.le_succ _), hkey⟩, hrank⟩
  · rw [mem_cappedStakeWeights]
    constructor
    · rintro ⟨hw, hrank, hkey⟩
      refine ⟨hw, ?_, hkey⟩
      by_contra hover
      refine htruncated (any_eq_true.mpr ⟨w, mem_cappedStakeWeights.mpr ⟨hw, hrank, hkey⟩, ?_⟩)
      simpa using hover
    · rintro ⟨hw, hrank, hkey⟩
      exact ⟨hw, hrank.trans (Nat.le_succ _), hkey⟩

theorem truncated_iff (hkeys : 0 < maxKeys) :
    (capSources R h rows maxSources maxKeys).2 ↔ maxSources < (ranked R h rows).card := by
  simp only [capSources, any_eq_true, decide_eq_true_eq, mem_cappedStakeWeights]
  constructor
  · rintro ⟨w, ⟨hw, -, -⟩, hover⟩
    exact hover.trans_le (denseRank_le (mem_parts.mpr ⟨w, hw, rfl⟩))
  · intro hover
    obtain ⟨k, hk, hrank⟩ := exists_denseRank_eq hover
    obtain ⟨w, hw, rfl, hfirst⟩ := exists_rowNumber_eq_one Weight.key hk
    have hrank : sourceRank R h rows w = maxSources + 1 := hrank
    exact ⟨w, ⟨hw, hrank.le, hfirst.trans_le hkeys⟩, by omega⟩

variable {source : ℕ}

theorem exists_mem_capSources_iff (hkeys : 0 < maxKeys) :
    (∃ w ∈ (capSources R h rows maxSources maxKeys).1, w.source = source) ↔
      R.addressOrder h source ∈ ranked R h rows ∧
        denseRank (fun w => R.addressOrder h w.source) rows (R.addressOrder h source) ≤ maxSources := by
  constructor
  · rintro ⟨w, hw, rfl⟩
    obtain ⟨hw, hrank, -⟩ := mem_capSources.mp hw
    exact ⟨mem_parts.mpr ⟨w, hw, rfl⟩, hrank⟩
  · rintro ⟨hpart, hrank⟩
    obtain ⟨w, hw, horder, hfirst⟩ := exists_rowNumber_eq_one Weight.key hpart
    have hsource : w.source = source := R.addressOrder_injective h horder
    refine ⟨w, mem_capSources.mpr ⟨hw, ?_, hfirst.trans_le hkeys⟩, hsource⟩
    rw [sourceRank, hsource]
    exact hrank

end cap

/-! ### The rows of the map -/

section map

variable {R : Rules} {s : State} {h : ℕ} {minStake : ℚ} {w : Weight}

theorem mem_stakeWeights : w ∈ stakeWeights R s h minStake ↔
    w.source ∈ qualifyingSources R s h minStake ∧ w.key ∈ effectiveKeys s h w.source ∧
      w.weight = sourceTotal R s h w.source := by
  simp only [stakeWeights, mem_flatMap, mem_map]
  constructor
  · rintro ⟨source, hsource, key, hkey, rfl⟩
    exact ⟨hsource, hkey, rfl⟩
  · rintro ⟨hsource, hkey, hweight⟩
    exact ⟨w.source, hsource, w.key, hkey, by rw [← hweight]⟩

/-- The place of a row among those of its source is that of its key among the keys of the source. -/
theorem rowNumber_stakeWeights (hw : w ∈ stakeWeights R s h minStake) :
    rowNumber (fun w => R.addressOrder h w.source) Weight.key (stakeWeights R s h minStake) w =
      ((effectiveKeys s h w.source).filter (· < w.key)).length + 1 := by
  obtain ⟨hsource, -, -⟩ := mem_stakeWeights.mp hw
  have hnodup : (qualifyingSources R s h minStake).Nodup := (nodup_dedup _).filter _
  rw [rowNumber, stakeWeights, filter_flatMap, flatMap_eq_of_unique hnodup hsource fun q _ hq => ?_]
  · rw [filter_map]
    simp [Function.comp_def]
  · refine filter_eq_nil_iff.mpr fun y hy => ?_
    obtain ⟨key, -, rfl⟩ := mem_map.mp hy
    have hne : R.addressOrder h q ≠ R.addressOrder h w.source :=
      fun he => hq (R.addressOrder_injective h he)
    simp [hne]

/-- The sources that the map can have: those above the minimum with a key that signs. -/
def signingSources (R : Rules) (s : State) (h : ℕ) (minStake : ℚ) : List ℕ :=
  (qualifyingSources R s h minStake).filter fun source => effectiveKeys s h source ≠ []

theorem mem_signingSources : source ∈ signingSources R s h minStake ↔
    source ∈ qualifyingSources R s h minStake ∧ effectiveKeys s h source ≠ [] := by
  simp [signingSources]

theorem ranked_stakeWeights : ranked R h (stakeWeights R s h minStake) =
    (signingSources R s h minStake).toFinset.image (R.addressOrder h) := by
  ext k
  simp only [ranked, mem_parts, Finset.mem_image, mem_toFinset, mem_signingSources]
  constructor
  · rintro ⟨w, hw, rfl⟩
    obtain ⟨hsource, hkey, -⟩ := mem_stakeWeights.mp hw
    exact ⟨w.source, ⟨hsource, ne_nil_of_mem hkey⟩, rfl⟩
  · rintro ⟨source, ⟨hsource, hkeys⟩, rfl⟩
    obtain ⟨key, hkey⟩ := exists_mem_of_ne_nil _ hkeys
    exact ⟨⟨key, source, sourceTotal R s h source⟩, mem_stakeWeights.mpr ⟨hsource, hkey, rfl⟩, rfl⟩

theorem card_ranked_stakeWeights :
    (ranked R h (stakeWeights R s h minStake)).card = (signingSources R s h minStake).length := by
  have hnodup : (signingSources R s h minStake).Nodup :=
    ((nodup_dedup _).filter _).filter _
  rw [ranked_stakeWeights, Finset.card_image_of_injective _ (R.addressOrder_injective h),
    toFinset_card_of_nodup hnodup]

end map

/-! ### More keys for one source -/

/-- The state with more stake rows and delegations. -/
def addKeys (s : State) (stakes : List Stake) (delegations : List Delegation) : State :=
  { s with tables := { s.tables with
      stakes := s.tables.stakes ++ stakes
      delegations := s.tables.delegations ++ delegations } }

section more

variable {R : Rules} {s : State} {h : ℕ} {minStake : ℚ} {source : ℕ} {stakes : List Stake}
  {delegations : List Delegation}

/-- The rows are of one source, and hold no less than nothing. -/
structure OfSource (R : Rules) (s : State) (h source : ℕ) (stakes : List Stake)
    (delegations : List Delegation) : Prop where
  staked : ∀ r ∈ stakes, r.source = source
  amounts : ∀ r ∈ stakes, 0 ≤ stakeAmountAt R s h r
  delegated : ∀ d ∈ delegations, d.source = source

theorem sourceTotal_addKeys (q : ℕ) : sourceTotal R (addKeys s stakes delegations) h q =
    sourceTotal R s h q + sumOver (stakeAmountAt R s h) (fun r => r.source = q && stakeActive h r) stakes :=
  sumOver_append _ _

variable {q : ℕ}

theorem sourceTotal_addKeys_of_ne (hof : OfSource R s h source stakes delegations) (hq : q ≠ source)
    : sourceTotal R (addKeys s stakes delegations) h q = sourceTotal R s h q := by
  rw [sourceTotal_addKeys, sumOver_eq_zero fun r hr => ?_, add_zero]
  simp [hof.staked r hr, hq.symm]

theorem effectiveKeys_addKeys (q : ℕ) : effectiveKeys (addKeys s stakes delegations) h q =
    ((s.tables.stakes.filter (fun r => r.source = q && signs s h r) ++
        stakes.filter (fun r => r.source = q && signs s h r)).map Stake.key ++
      (s.tables.delegations.filter (fun d => d.source = q && delegates s h d) ++
        delegations.filter (fun d => d.source = q && delegates s h d)).map Delegation.key).dedup := by
  rw [← filter_append, ← filter_append]
  rfl

theorem effectiveKeys_addKeys_of_ne (hof : OfSource R s h source stakes delegations)
    (hq : q ≠ source) : effectiveKeys (addKeys s stakes delegations) h q = effectiveKeys s h q := by
  have hstakes : stakes.filter (fun r => r.source = q && signs s h r) = [] :=
    filter_eq_nil_iff.mpr fun r hr => by simp [hof.staked r hr, hq.symm]
  have hdelegations : delegations.filter (fun d => d.source = q && delegates s h d) = [] :=
    filter_eq_nil_iff.mpr fun d hd => by simp [hof.delegated d hd, hq.symm]
  rw [effectiveKeys_addKeys, hstakes, hdelegations, append_nil, append_nil]
  rfl

theorem mem_effectiveKeys_addKeys {key : ℕ} (hkey : key ∈ effectiveKeys s h q) :
    key ∈ effectiveKeys (addKeys s stakes delegations) h q := by
  rw [effectiveKeys, mem_dedup, mem_append] at hkey
  rw [effectiveKeys_addKeys, mem_dedup, map_append, map_append, mem_append]
  exact hkey.imp (mem_append_left _) (mem_append_left _)

theorem mem_qualifyingSources : q ∈ qualifyingSources R s h minStake ↔
    (∃ r ∈ s.tables.stakes, stakeActive h r ∧ r.source = q) ∧ castAmount minStake ≤ sourceTotal R s h q := by
  simp [qualifyingSources, and_assoc]

section
variable (hof : OfSource R s h source stakes delegations)
include hof

theorem mem_qualifyingSources_addKeys_of_ne
    (hq : q ≠ source) : q ∈ qualifyingSources R (addKeys s stakes delegations) h minStake ↔
      q ∈ qualifyingSources R s h minStake := by
  rw [mem_qualifyingSources, mem_qualifyingSources, sourceTotal_addKeys_of_ne hof hq]
  refine and_congr_left fun _ => ⟨?_, ?_⟩
  · rintro ⟨r, hr, hactive, hsource⟩
    rcases mem_append.mp hr with hr | hr
    · exact ⟨r, hr, hactive, hsource⟩
    · exact absurd (hsource.symm.trans (hof.staked r hr)) hq
  · rintro ⟨r, hr, hactive, hsource⟩
    exact ⟨r, mem_append_left _ hr, hactive, hsource⟩

theorem mem_signingSources_addKeys (hq : q ∈ signingSources R s h minStake) :
    q ∈ signingSources R (addKeys s stakes delegations) h minStake := by
  obtain ⟨hqualifies, hkeys⟩ := mem_signingSources.mp hq
  obtain ⟨⟨r, hr, hactive, hsource⟩, hmin⟩ := mem_qualifyingSources.mp hqualifies
  refine mem_signingSources.mpr ⟨mem_qualifyingSources.mpr
    ⟨⟨r, mem_append_left _ hr, hactive, hsource⟩, hmin.trans ?_⟩, ?_⟩
  · rw [sourceTotal_addKeys]
    refine le_add_of_nonneg_right (sum_nonneg fun x hx => ?_)
    obtain ⟨r, hr, rfl⟩ := mem_map.mp hx
    exact hof.amounts r (mem_filter.mp hr).1
  · obtain ⟨key, hkey⟩ := exists_mem_of_ne_nil _ hkeys
    exact ne_nil_of_mem (mem_effectiveKeys_addKeys hkey)

section
variable (hsource : source ∈ signingSources R (addKeys s stakes delegations) h minStake → source ∈ signingSources R s h minStake)
include hsource

theorem ranked_addKeys : ranked R h (stakeWeights R (addKeys s stakes delegations) h minStake) =
      ranked R h (stakeWeights R s h minStake) := by
  rw [ranked_stakeWeights, ranked_stakeWeights]
  congr 1
  ext q
  rw [mem_toFinset, mem_toFinset]
  refine ⟨fun hq => ?_, mem_signingSources_addKeys hof⟩
  by_cases hne : q = source
  · exact hne ▸ hsource (hne ▸ hq)
  · rw [mem_signingSources, mem_qualifyingSources_addKeys_of_ne hof hne,
      effectiveKeys_addKeys_of_ne hof hne] at hq
    exact mem_signingSources.mpr hq

theorem mem_capSources_addKeys (maxSources maxKeys : ℕ) (hw : w.source ≠ source) :
    w ∈ (capSources R h (stakeWeights R (addKeys s stakes delegations) h minStake) maxSources maxKeys).1 ↔
      w ∈ (capSources R h (stakeWeights R s h minStake) maxSources maxKeys).1 := by
  have hmem : w ∈ stakeWeights R (addKeys s stakes delegations) h minStake ↔
      w ∈ stakeWeights R s h minStake := by
    rw [mem_stakeWeights, mem_stakeWeights, mem_qualifyingSources_addKeys_of_ne hof hw,
      effectiveKeys_addKeys_of_ne hof hw, sourceTotal_addKeys_of_ne hof hw]
  rw [mem_capSources, mem_capSources, hmem]
  refine and_congr_right fun hrow => and_congr ?_ ?_
  · rw [sourceRank, sourceRank, denseRank_congr (ranked_addKeys hof hsource)]
  · rw [rowNumber_stakeWeights (hmem.mpr hrow), rowNumber_stakeWeights hrow,
      effectiveKeys_addKeys_of_ne hof hw]

end

end

end more

/-- The map under a cap of `maxSources`. -/
def cappedMap (R : Rules) (s : State) (h : ℕ) (minStake : ℚ) (maxSources : ℕ) : List Weight × Bool :=
  capSources R h (stakeWeights R s h minStake) maxSources stakeWeightMaxKeysPerSource

/-- **Keys of one source do not move another.** For a source that had a row already, or has none
still, more keys leave the rows of the other sources as they were and the same sources kept; every
row has the whole weight of its source; and the map is truncated when more than `maxSources` sources
have a row. -/
theorem cap_noninterference {R : Rules} {s : State} {h : ℕ} {minStake : ℚ} {source : ℕ}
    {stakes : List Stake} {delegations : List Delegation} (maxSources : ℕ)
    (hof : OfSource R s h source stakes delegations)
    (hsource : source ∈ signingSources R (addKeys s stakes delegations) h minStake →
      source ∈ signingSources R s h minStake) :
    (∀ w, w.source ≠ source →
      (w ∈ (cappedMap R (addKeys s stakes delegations) h minStake maxSources).1 ↔
        w ∈ (cappedMap R s h minStake maxSources).1)) ∧
    (∀ q, (∃ w ∈ (cappedMap R (addKeys s stakes delegations) h minStake maxSources).1, w.source = q) ↔
      ∃ w ∈ (cappedMap R s h minStake maxSources).1, w.source = q) ∧
    (∀ w ∈ (cappedMap R (addKeys s stakes delegations) h minStake maxSources).1,
      w.weight = sourceTotal R (addKeys s stakes delegations) h w.source) ∧
    ((cappedMap R (addKeys s stakes delegations) h minStake maxSources).2 = true ↔
      maxSources < (signingSources R (addKeys s stakes delegations) h minStake).length) := by
  have hkeys : 0 < stakeWeightMaxKeysPerSource := by decide
  refine ⟨fun w hw => mem_capSources_addKeys hof hsource _ _ hw, fun q => ?_, fun w hw => ?_, ?_⟩
  · rw [cappedMap, cappedMap, exists_mem_capSources_iff hkeys, exists_mem_capSources_iff hkeys,
      denseRank_congr (ranked_addKeys hof hsource), ranked_addKeys hof hsource]
  · exact (mem_stakeWeights.mp (mem_capSources.mp hw).1).2.2
  · rw [cappedMap, truncated_iff hkeys, card_ranked_stakeWeights]

/-- Two sources with a stake, of which the first revokes its only key. -/
def revoked : List (ℕ × Event) :=
  [(1, .stake 1 7 5 false true), (1, .stake 2 8 5 false true), (10, .revoke 1 7 true)]

/-- With room for one of two sources, the source that is left out takes on two keys. -/
theorem cap_noninterference_two :
    ∃ s, run (step Keys.rules) init (revoked.take 2) = some s ∧
      cappedMap Keys.rules s 26 2 1 = ([⟨7, 1, 5⟩], true) ∧
      ∀ w, w.source ≠ 2 → (w ∈ (cappedMap Keys.rules (addKeys s [] [⟨4, 2, 9, .capability, 26, none, 20⟩,
        ⟨5, 2, 6, .capability, 26, none, 20⟩]) 26 2 1).1 ↔ w ∈ (cappedMap Keys.rules s 26 2 1).1) := by
  obtain ⟨s, hs, hmap⟩ : ∃ s, run (step Keys.rules) init (revoked.take 2) = some s ∧
      cappedMap Keys.rules s 26 2 1 = ([⟨7, 1, 5⟩], true) ∧ 2 ∈ signingSources Keys.rules s 26 2 := by
    decide +kernel
  exact ⟨s, hs, hmap.1, (cap_noninterference 1 ⟨by simp, by simp, by simp⟩ fun _ => hmap.2).1⟩

/-- A source above the minimum whose keys are all revoked is not counted. When it delegates to a first
key it is, and another source is left out. -/
theorem first_key_displaces :
    ∃ s s', run (step Keys.rules) init revoked = some s ∧
      run (step Keys.rules) s [(20, .delegate 1 9 true)] = some s' ∧
      (qualifyingSources Keys.rules s 26 2).length = 2 ∧
      cappedMap Keys.rules s 26 2 1 = ([⟨8, 2, 5⟩], false) ∧
      cappedMap Keys.rules s' 26 2 1 = ([⟨9, 1, 5⟩], true) := by
  obtain ⟨s, hs, hlength, hmap, s', hs', hmap'⟩ : ∃ s, run (step Keys.rules) init revoked = some s ∧
      (qualifyingSources Keys.rules s 26 2).length = 2 ∧
        cappedMap Keys.rules s 26 2 1 = ([⟨8, 2, 5⟩], false) ∧
        ∃ s', run (step Keys.rules) s [(20, .delegate 1 9 true)] = some s' ∧
          cappedMap Keys.rules s' 26 2 1 = ([⟨9, 1, 5⟩], true) := by decide +kernel
  exact ⟨s, s', hs, hs', hlength, hmap, hmap'⟩

end XChainIndexer.Staking.Capped
