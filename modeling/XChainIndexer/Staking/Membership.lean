import XChainIndexer.Staking.Capped
import XChainIndexer.Staking.History

/-! # The three reads of the signer set

`hasCapability`, the validator list and the stake-weight map are three queries for one set of keys. The
list asks for the minimum stake under each stake key, the map for that of the source, and the membership
test adds up the sources that delegate to a key. `signers_agree`: on a state of a run the test agrees with
the effective set, and within the caps the map agrees with the list exactly if every stake key meets the
minimum when its source does (`Even`). `split_stake_disagrees`: a source that splits its stake over two
keys is in the map with both and in the list with neither. `slashed_key_stays_out`: a key that was slashed
is in none of them. -/

namespace XChainIndexer.Staking.Membership

open Lib.Decimal Lib.Run List Lib.SumOver Lib.Window Staking.Tables Staking.Reads Staking.Capability
open Staking.Keys Staking.Views Staking.Capped

/-! ### Reads of a view -/

/-- The stake and the delegations under a key are of one source. -/
structure OneSource (v : View) : Prop where
  bonds : ∀ b ∈ v.bonds, ∀ b' ∈ v.bonds, b.key = b'.key → b.source = b'.source
  grants : ∀ g ∈ v.grants, ∀ g' ∈ v.grants, g.key = g'.key → g.source = g'.source

/-- A stake key that signs meets the minimum exactly when its source does, unless a source that does
delegates to it. -/
def Even (v : View) (min : ℚ) : Prop :=
  ∀ b ∈ v.bonds, b.revoked = false → v.slashed b.key = false →
    (∃ g ∈ v.grants, g.key = b.key ∧ g.source ∈ sourcesAbove v min) ∨
      (min ≤ keyStake v b.key ↔ min ≤ sourceStake v b.source)

section view

variable {v : View} {min : ℚ} {key : ℕ}

theorem mem_sourcesAbove {source : ℕ} : source ∈ sourcesAbove v min ↔
    (∃ b ∈ v.bonds, b.source = source) ∧ min ≤ sourceStake v source := by
  simp [sourcesAbove]

theorem mem_signerSet : key ∈ (signerSet v min).map Prod.fst ↔ v.slashed key = false ∧
      ((∃ b ∈ v.bonds, b.key = key ∧ b.revoked = false) ∧ min ≤ keyStake v key ∨
        ∃ g ∈ v.grants, g.key = key ∧ g.source ∈ sourcesAbove v min) := by
  simp only [signerSet, map_append, mem_append, mem_map, mem_filter,
    mem_dedup, Bool.and_eq_true, Bool.not_eq_true', decide_eq_true_eq]
  constructor
  · rintro (⟨_, ⟨⟨_, ⟨b, ⟨hb, hrevoked, hslashed⟩, rfl⟩, rfl⟩, hmin⟩, rfl⟩ |
      ⟨_, ⟨g, ⟨hg, hslashed, hsource⟩, rfl⟩, rfl⟩)
    · exact ⟨hslashed, .inl ⟨⟨b, hb, rfl, hrevoked⟩, hmin⟩⟩
    · exact ⟨hslashed, .inr ⟨g, hg, rfl, hsource⟩⟩
  · rintro ⟨hslashed, ⟨⟨b, hb, rfl, hrevoked⟩, hmin⟩ | ⟨g, hg, rfl, hsource⟩⟩
    · exact .inl ⟨_, ⟨⟨b.key, ⟨b, ⟨hb, hrevoked, hslashed⟩, rfl⟩, rfl⟩, hmin⟩, rfl⟩
    · exact .inr ⟨_, ⟨g, ⟨hg, hslashed, hsource⟩, rfl⟩, rfl⟩

theorem mem_weights : key ∈ (weights v min).map Weight.key ↔ v.slashed key = false ∧
      ((∃ b ∈ v.bonds, b.key = key ∧ b.revoked = false ∧ b.source ∈ sourcesAbove v min) ∨
        ∃ g ∈ v.grants, g.key = key ∧ g.source ∈ sourcesAbove v min) := by
  simp only [weights, keysOf, mem_map, mem_flatMap, mem_dedup, mem_append,
    mem_filter, Bool.and_eq_true, Bool.not_eq_true', decide_eq_true_eq]
  constructor
  · rintro ⟨_, ⟨source, hsource, _, (⟨b, ⟨hb, ⟨rfl, hrevoked⟩, hslashed⟩, rfl⟩ |
      ⟨g, ⟨hg, rfl, hslashed⟩, rfl⟩), rfl⟩, rfl⟩
    · exact ⟨hslashed, .inl ⟨b, hb, rfl, hrevoked, hsource⟩⟩
    · exact ⟨hslashed, .inr ⟨g, hg, rfl, hsource⟩⟩
  · rintro ⟨hslashed, ⟨b, hb, rfl, hrevoked, hsource⟩ | ⟨g, hg, rfl, hsource⟩⟩
    · exact ⟨_, ⟨b.source, hsource, b.key, .inl ⟨b, ⟨hb, ⟨rfl, hrevoked⟩, hslashed⟩, rfl⟩, rfl⟩, rfl⟩
    · exact ⟨_, ⟨g.source, hsource, g.key, .inr ⟨g, ⟨hg, rfl, hslashed⟩, rfl⟩, rfl⟩, rfl⟩

section
variable (hone : OneSource v)
include hone

/-- Where a key is delegated to by one source, the sum over all of them is its stake. -/
theorem sum_granted {g : Grant} (hg : g ∈ v.grants) :
    sumOver Bond.amount (fun b => grantedBy v g.key b.source) v.bonds = sourceStake v g.source := by
  refine sumOver_congr (fun b _ => ?_) fun _ _ _ => rfl
  rw [Bool.eq_iff_iff, grantedBy, any_eq_true, decide_eq_true_eq]
  constructor
  · rintro ⟨g', hg', heq⟩
    simp only [Bool.and_eq_true, decide_eq_true_eq] at heq
    rw [← heq.2]
    exact hone.grants g' hg' g hg heq.1
  · intro hsource
    exact ⟨g, hg, by simp [hsource]⟩

theorem qualifies_iff : qualifies v key min ↔ key ∈ (signerSet v min).map Prod.fst := by
  simp only [qualifies, mem_signerSet, Bool.and_eq_true, Bool.or_eq_true, Bool.not_eq_true',
    decide_eq_true_eq, any_eq_true]
  refine and_congr_right fun _ => or_congr_right ?_
  constructor
  · rintro ⟨⟨b, hb, hgranted⟩, hmin⟩
    obtain ⟨g, hg, heq⟩ := any_eq_true.mp hgranted
    simp only [Bool.and_eq_true, decide_eq_true_eq] at heq
    obtain ⟨rfl, hsource⟩ := heq
    rw [sum_granted hone hg] at hmin
    exact ⟨g, hg, rfl, mem_sourcesAbove.mpr ⟨⟨b, hb, hsource.symm⟩, hmin⟩⟩
  · rintro ⟨g, hg, rfl, hsource⟩
    obtain ⟨⟨b, hb, hbsource⟩, hmin⟩ := mem_sourcesAbove.mp hsource
    rw [sum_granted hone hg]
    exact ⟨⟨b, hb, any_eq_true.mpr ⟨g, hg, by simp [hbsource]⟩⟩, hmin⟩

/-- **The map and the list** have the same keys exactly on an even view. -/
theorem weights_iff : (∀ key, key ∈ (weights v min).map Weight.key ↔ key ∈ (signerSet v min).map Prod.fst) ↔
    Even v min := by
  simp only [mem_weights, mem_signerSet]
  constructor
  · intro hagree b hb hrevoked hslashed
    by_cases hgrant : ∃ g ∈ v.grants, g.key = b.key ∧ g.source ∈ sourcesAbove v min
    · exact .inl hgrant
    · have hkey := hagree b.key
      simp only [hslashed, hgrant, true_and, or_false] at hkey
      refine .inr ⟨fun hmin => ?_, fun hmin => ?_⟩
      · obtain ⟨b', hb', hsame, -, hsource⟩ := hkey.mpr ⟨⟨b, hb, rfl, hrevoked⟩, hmin⟩
        rw [← hone.bonds b' hb' b hb hsame]
        exact (mem_sourcesAbove.mp hsource).2
      · exact (hkey.mp ⟨b, hb, rfl, hrevoked, mem_sourcesAbove.mpr ⟨⟨b, hb, rfl⟩, hmin⟩⟩).2
  · intro heven key
    refine and_congr_right fun hslashed => ?_
    by_cases hgrant : ∃ g ∈ v.grants, g.key = key ∧ g.source ∈ sourcesAbove v min
    · simp only [hgrant, or_true]
    · rw [or_iff_left hgrant, or_iff_left hgrant]
      constructor
      · rintro ⟨b, hb, rfl, hrevoked, hsource⟩
        have hiff := (heven b hb hrevoked hslashed).resolve_left hgrant
        exact ⟨⟨b, hb, rfl, hrevoked⟩, hiff.mpr (mem_sourcesAbove.mp hsource).2⟩
      · rintro ⟨⟨b, hb, rfl, hrevoked⟩, hmin⟩
        have hiff := (heven b hb hrevoked hslashed).resolve_left hgrant
        exact ⟨b, hb, rfl, hrevoked, mem_sourcesAbove.mpr ⟨⟨b, hb, rfl⟩, hiff.mp hmin⟩⟩

end

end view

/-! ### The views of a run -/

section state

variable {R : Rules} {s : State} {h : ℕ} {minStake : ℚ}

/-- The source has stake at the height, and the minimum of it. -/
def Backed (R : Rules) (s : State) (h : ℕ) (minStake : ℚ) (source : ℕ) : Prop :=
  (∃ r ∈ s.tables.stakes, stakeActive h r ∧ r.source = source) ∧ minStake ≤ sourceTotal R s h source

instance (R : Rules) (s : State) (h : ℕ) (minStake : ℚ) (source : ℕ) :
    Decidable (Backed R s h minStake source) := by
  unfold Backed; infer_instance

/-- `Even`, on the tables. -/
def EvenStake (R : Rules) (s : State) (h : ℕ) (minStake : ℚ) : Prop :=
  ∀ r ∈ s.tables.stakes, signs s h r →
    (∃ d ∈ s.tables.delegations, delegationActive h d ∧ d.key = r.key ∧ Backed R s h minStake d.source) ∨
      (minStake ≤ keyTotal R s h r.key ↔ minStake ≤ sourceTotal R s h r.source)

instance (R : Rules) (s : State) (h : ℕ) (minStake : ℚ) : Decidable (EvenStake R s h minStake) := by
  unfold EvenStake; infer_instance

/-- The keys that sign at a height, each with its source. -/
def signatories (s : State) (h : ℕ) : List (ℕ × ℕ) :=
  (s.tables.stakes.filter (signs s h)).map (fun r => (r.key, r.source)) ++
    (s.tables.delegations.filter (delegates s h)).map fun d => (d.key, d.source)

/-- The keys with the minimum behind them, by the key or by the source. -/
def candidates (R : Rules) (s : State) (h : ℕ) (minStake : ℚ) : Finset ℕ :=
  (((signatories s h).filter fun p =>
    minStake ≤ keyTotal R s h p.1 ∨ Backed R s h minStake p.2).map Prod.fst).toFinset

/-- There are no more keys and sources than the two lists hold. -/
structure WithinCaps (R : Rules) (s : State) (h : ℕ) (minStake : ℚ) : Prop where
  keys : (candidates R s h minStake).card < R.queryLimit
  sources : R.sourceCap h → (((signatories s h).filter fun p =>
    Backed R s h minStake p.2).map Prod.snd).toFinset.card ≤ stakeWeightMaxSources
  perSource : R.sourceCap h → ∀ source, (((signatories s h).filter fun p =>
    p.2 = source).map Prod.fst).toFinset.card ≤ stakeWeightMaxKeysPerSource

theorem mem_bonds : b ∈ (viewAt R s h).bonds ↔
    ∃ r ∈ s.tables.stakes, stakeActive h r ∧ bondAt R s h r = b := by
  simp [viewAt, and_assoc]

theorem oneSource_viewAt (hreach : Reaches (step R) (fun _ e => R.noReinsert e.1 = true) init s) :
    OneSource (viewAt R s h) := by
  constructor
  · intro b hb b' hb' hkey
    have hholds : ∀ b ∈ (viewAt R s h).bonds, b.source ∈ holders s h b.key := by
      intro b hb
      obtain ⟨r, hr, hactive, rfl⟩ := mem_bonds.mp hb
      refine mem_append_left _ (mem_map.mpr ⟨r, mem_filter.mpr ⟨hr, ?_⟩, rfl⟩)
      simp [bondAt, hactive]
    exact holders_eq_of_reaches hreach (hholds b hb) (hkey ▸ hholds b' hb')
  · intro g hg g' hg' hkey
    have hholds : ∀ g ∈ (viewAt R s h).grants, g.source ∈ holders s h g.key := by
      intro g hg
      obtain ⟨d, hd, rfl⟩ := mem_map.mp hg
      obtain ⟨hd, hactive⟩ := mem_filter.mp hd
      refine mem_append_right _ (mem_map.mpr ⟨d, mem_filter.mpr ⟨hd, ?_⟩, rfl⟩)
      simp [hactive]
    exact holders_eq_of_reaches hreach (hholds g hg) (hkey ▸ hholds g' hg')

variable (hmin : OnGrid 8 minStake)
include hmin

theorem mem_qualifyingSources_iff {source : ℕ} :
    source ∈ qualifyingSources R s h minStake ↔ Backed R s h minStake source := by
  rw [mem_qualifyingSources, castAmount_of_onGrid hmin, Backed]

theorem even_viewAt : Even (viewAt R s h) minStake ↔ EvenStake R s h minStake := by
  have hsources : ∀ source, source ∈ sourcesAbove (viewAt R s h) minStake ↔ Backed R s h minStake source := by
    intro source
    rw [← mem_qualifyingSources_iff hmin, ← sourcesAbove_viewAt, castAmount_of_onGrid hmin]
  have hgrants : ∀ key, (∃ g ∈ (viewAt R s h).grants, g.key = key ∧
      g.source ∈ sourcesAbove (viewAt R s h) minStake) ↔ ∃ d ∈ s.tables.delegations,
        delegationActive h d ∧ d.key = key ∧ Backed R s h minStake d.source := by
    intro key
    simp [viewAt, ← hsources, and_assoc]
  constructor
  · intro heven r hr hsigns
    simp only [signs, Bool.and_eq_true, Bool.not_eq_true'] at hsigns
    have hbond := heven (bondAt R s h r) (mem_bonds.mpr ⟨r, hr, hsigns.1.1, rfl⟩) hsigns.1.2 hsigns.2
    rwa [hgrants, keyStake_viewAt, sourceStake_viewAt] at hbond
  · intro heven b hb hrevoked hslashed
    obtain ⟨r, hr, hactive, rfl⟩ := mem_bonds.mp hb
    rw [hgrants, keyStake_viewAt, sourceStake_viewAt]
    refine heven r hr ?_
    have hrevoked : isRevoked s h r = false := hrevoked
    have hslashed : isPubkeySlashedAt s r.key h = false := hslashed
    simp [signs, hactive, hslashed, hrevoked]

/-! ### Within the caps -/

omit hmin in
theorem mem_effectiveKeys {key source : ℕ} :
    key ∈ effectiveKeys s h source ↔ (key, source) ∈ signatories s h := by
  simp only [effectiveKeys, signatories, mem_dedup, mem_append, mem_map, mem_filter, Bool.and_eq_true,
    decide_eq_true_eq, Prod.mk.injEq]
  refine or_congr (exists_congr fun r => ?_) (exists_congr fun d => ?_) <;> tauto

theorem effective_subset_candidates :
    ((effectiveCapabilitySet R s h minStake).map Prod.fst).toFinset ⊆ candidates R s h minStake := by
  intro key hkey
  simp only [effectiveCapabilitySet, map_append, mem_toFinset, mem_append, mem_map, mem_filter, mem_dedup,
    Bool.and_eq_true, decide_eq_true_eq, castAmount_of_onGrid hmin, mem_qualifyingSources_iff hmin] at hkey
  simp only [candidates, mem_toFinset, mem_map, mem_filter, decide_eq_true_eq]
  rcases hkey with ⟨_, ⟨⟨_, ⟨r, hr, rfl⟩, rfl⟩, htotal⟩, rfl⟩ | ⟨_, ⟨d, ⟨hd, hdelegates, hsource⟩, rfl⟩, rfl⟩
  · exact ⟨_, ⟨mem_append_left _ (mem_map_of_mem (mem_filter.mpr hr)), .inl htotal⟩, rfl⟩
  · exact ⟨_, ⟨mem_append_right _ (mem_map_of_mem (mem_filter.mpr ⟨hd, hdelegates⟩)), .inr hsource⟩, rfl⟩

theorem mem_validators (hcaps : WithinCaps R s h minStake) {key : ℕ} :
    key ∈ (getValidatorsByCapability R s h minStake).1.map Prod.fst ↔
      key ∈ (effectiveCapabilitySet R s h minStake).map Prod.fst := by
  have hlen : ((effectiveCapabilitySet R s h minStake).map Prod.fst).dedup.length ≤ R.queryLimit := by
    rw [← card_toFinset]
    exact (Finset.card_le_card (effective_subset_candidates hmin)).trans hcaps.keys.le
  simp only [getValidatorsByCapability]
  rw [take_of_length_le (by simpa using hlen)]
  simp [Function.comp_def]

theorem weight_signs {w : Weight} (hw : w ∈ stakeWeights R s h minStake) :
    (w.key, w.source) ∈ signatories s h ∧ Backed R s h minStake w.source := by
  obtain ⟨hsource, hkey, -⟩ := mem_stakeWeights.mp hw
  exact ⟨mem_effectiveKeys.mp hkey, (mem_qualifyingSources_iff hmin).mp hsource⟩

/-- A key has one row, so the rows are no more than the candidates. -/
theorem length_stakeWeights_le (hreach : Reaches (step R) (fun _ e => R.noReinsert e.1 = true) init s) :
    (stakeWeights R s h minStake).length ≤ (candidates R s h minStake).card := by
  have hrows : (stakeWeights R s h minStake).Nodup := by
    refine nodup_flatMap.mpr ⟨fun source _ => ?_, ?_⟩
    · exact (nodup_dedup _).map fun _ _ heq => (Weight.mk.inj heq).1
    · refine ((nodup_dedup _).filter _).imp fun {a b} hne w hwa hwb => ?_
      obtain ⟨_, -, rfl⟩ := mem_map.mp hwa
      obtain ⟨_, -, heq⟩ := mem_map.mp hwb
      exact hne (Weight.mk.inj heq).2.1.symm
  have hkeys : ((stakeWeights R s h minStake).map Weight.key).Nodup := by
    refine hrows.map_on fun w hw w' hw' hkey => ?_
    have hsource : w.source = w'.source :=
      holders_eq_of_reaches hreach (source_mem_holders hw) (hkey ▸ source_mem_holders hw')
    have hweight : w.weight = w'.weight := by
      rw [(mem_stakeWeights.mp hw).2.2, (mem_stakeWeights.mp hw').2.2, hsource]
    cases w; cases w'
    simp_all
  rw [← length_map (f := Weight.key), ← toFinset_card_of_nodup hkeys]
  refine Finset.card_le_card fun key hkey => ?_
  obtain ⟨w, hw, rfl⟩ := mem_map.mp (mem_toFinset.mp hkey)
  obtain ⟨hsigns, hbacked⟩ := weight_signs hmin hw
  rw [candidates, mem_toFinset]
  exact mem_map.mpr ⟨_, mem_filter.mpr ⟨hsigns, decide_eq_true (.inr hbacked)⟩, rfl⟩

/-- Within the caps the map has every row. -/
theorem mem_withCap (hreach : Reaches (step R) (fun _ e => R.noReinsert e.1 = true) init s)
    (hcaps : WithinCaps R s h minStake) {w : Weight} :
    w ∈ (stakeWeightsWithCap R s h minStake).1 ↔ w ∈ stakeWeights R s h minStake := by
  unfold stakeWeightsWithCap
  dsimp only
  split_ifs with hcap
  · rw [mem_capSources]
    refine ⟨fun hw => hw.1, fun hw => ⟨hw, ?_, ?_⟩⟩
    · refine (denseRank_le (mem_parts.mpr ⟨w, hw, rfl⟩)).trans ((Finset.card_le_card fun k hk => ?_).trans
        ((Finset.card_image_le (f := R.addressOrder h)).trans (hcaps.sources hcap)))
      obtain ⟨w', hw', rfl⟩ := mem_parts.mp hk
      obtain ⟨hsigns, hbacked⟩ := weight_signs hmin hw'
      refine Finset.mem_image_of_mem _ (mem_toFinset.mpr ?_)
      exact mem_map.mpr ⟨_, mem_filter.mpr ⟨hsigns, decide_eq_true hbacked⟩, rfl⟩
    · rw [rowNumber_stakeWeights hw]
      have hkeys : (effectiveKeys s h w.source).length ≤ stakeWeightMaxKeysPerSource := by
        refine le_trans ?_ (hcaps.perSource hcap w.source)
        rw [effectiveKeys, ← toFinset_card_of_nodup (nodup_dedup _), ← effectiveKeys]
        refine Finset.card_le_card fun key hkey => mem_toFinset.mpr ?_
        have hsigns := mem_effectiveKeys.mp (mem_toFinset.mp hkey)
        exact mem_map.mpr ⟨_, mem_filter.mpr ⟨hsigns, decide_eq_true rfl⟩, rfl⟩
      refine (Nat.succ_le_of_lt ?_).trans hkeys
      exact length_filter_lt_length_iff_exists.mpr ⟨w.key, (mem_stakeWeights.mp hw).2.1, by simp⟩
  · have hlen := (length_stakeWeights_le hmin hreach).trans hcaps.keys.le
    rw [take_of_length_le (by simpa using hlen), mem_insertionSort]

end state

/-- **The reads agree.** In a state of a run and at a height, for a minimum of at most 8 decimals, a key
has the capability exactly when it is in the effective signer set; and with no more keys and sources than
the lists hold, the stake-weight map and the validator list have the same keys exactly if the stake is
even. -/
theorem signers_agree {R : Rules} {s : State}
    (hreach : Reaches (step R) (fun _ e => R.noReinsert e.1 = true) init s) (h : ℕ) {minStake : ℚ}
    (hmin : OnGrid 8 minStake) :
    (∀ key, hasCapability R s h key minStake = true ↔
      key ∈ (effectiveCapabilitySet R s h minStake).map Prod.fst) ∧
    (WithinCaps R s h minStake →
      ((∀ key, key ∈ (stakeWeightsWithCap R s h minStake).1.map Weight.key ↔
        key ∈ (getValidatorsByCapability R s h minStake).1.map Prod.fst) ↔ EvenStake R s h minStake)) := by
  have hone : OneSource (viewAt R s h) := oneSource_viewAt hreach
  refine ⟨fun key => ?_, fun hcaps => ?_⟩
  · rw [hasCapability_eq, effectiveCapabilitySet_eq, castAmount_of_onGrid hmin, qualifies_iff hone]
  · have hrows : ∀ key, key ∈ (stakeWeightsWithCap R s h minStake).1.map Weight.key ↔
        key ∈ (stakeWeights R s h minStake).map Weight.key := fun key => by
      simp only [mem_map, mem_withCap hmin hreach hcaps]
    simp only [hrows, mem_validators hmin hcaps, stakeWeights_eq, effectiveCapabilitySet_eq]
    rw [castAmount_of_onGrid hmin, weights_iff hone, even_viewAt hmin]

/-- A source with 6 under each of two keys, and a third one that it delegates to. -/
def evenly : List (ℕ × Event) :=
  [(1, .stake 1 7 6 false true), (1, .stake 1 8 6 false true), (8, .delegate 1 9 true), (20, .other)]

theorem signers_agree_evenly :
    ∃ s, run (step Keys.rules) init evenly = some s ∧
      (getValidatorsByCapability Keys.rules s 20 5).1 = [(7, 6), (8, 6), (9, 12)] ∧
      (∀ key, hasCapability Keys.rules s 20 key 5 = true ↔
        key ∈ (effectiveCapabilitySet Keys.rules s 20 5).map Prod.fst) ∧
      ∀ key, key ∈ (stakeWeightsWithCap Keys.rules s 20 5).1.map Weight.key ↔
        key ∈ (getValidatorsByCapability Keys.rules s 20 5).1.map Prod.fst := by
  obtain ⟨s, hs, hlist, heven, hkeys, hsources, hrows⟩ :
      ∃ s, run (step Keys.rules) init evenly = some s ∧
      (getValidatorsByCapability Keys.rules s 20 5).1 = [(7, 6), (8, 6), (9, 12)] ∧
      EvenStake Keys.rules s 20 5 ∧ (candidates Keys.rules s 20 5).card < Keys.rules.queryLimit ∧
      (((signatories s 20).filter fun p => Backed Keys.rules s 20 5 p.2).map
        Prod.snd).toFinset.card ≤ stakeWeightMaxSources ∧
      (signatories s 20).length ≤ stakeWeightMaxKeysPerSource := by
    decide +kernel
  obtain ⟨htest, hmap⟩ := signers_agree (Reaches.init.of_run (fun _ _ _ => rfl) hs) 20
    (by decide : OnGrid 8 5)
  refine ⟨s, hs, hlist, htest, (hmap ⟨hkeys, fun _ => hsources, fun _ source => ?_⟩).mpr heven⟩
  refine (toFinset_card_le _).trans (le_trans ?_ hrows)
  rw [length_map]
  exact length_filter_le _ _

/-- A source with 3 under each of two keys. -/
def split : List (ℕ × Event) := [(1, .stake 1 7 3 false true), (1, .stake 1 8 3 false true)]

/-- With a minimum of 5 the map has both keys of the source and the list none. -/
theorem split_stake_disagrees :
    ∃ s, run (step Keys.rules) init split = some s ∧
      stakeWeightsWithCap Keys.rules s 10 5 = ([⟨7, 1, 6⟩, ⟨8, 1, 6⟩], false) ∧
      getValidatorsByCapability Keys.rules s 10 5 = ([], false) := by
  decide +kernel

/-! ### Slashed keys -/

variable {R : Rules}

theorem slashEvents_step {s s' : State} {e : ℕ × Event} (hstep : step R s e = some s') :
    s.slashEvents ⊆ s'.slashEvents := by
  obtain ⟨block, ev⟩ := e
  unfold step at hstep
  split_ifs at hstep
  obtain ⟨⟩ := hstep
  cases ev with
  | slash offender resolveBlock => exact subset_append_left _ _
  | evict | mature | other => exact List.Subset.refl _
  | _ =>
    simp only [apply, takeIndex, stake, delegate, revoke, unstake, setDelegationDeactivation,
      sweepCapabilityStake]
    repeat' split
    all_goals exact List.Subset.refl _

/-- **A slashed key stays out.** Whatever happens after a SLASH, a new stake or delegation of its key
included, from its block on the key has no capability, is in no signer set and weighs nothing. -/
theorem slashed_key_stays_out {s s' t : State} {block key resolveBlock h : ℕ}
    (hslash : step R s (block, .slash key resolveBlock) = some s')
    (hreach : Reaches (step R) (fun _ _ => True) s' t) (hh : block ≤ h) (minStake : ℚ) :
    hasCapability R t h key minStake = false ∧ key ∉ (effectiveCapabilitySet R t h minStake).map Prod.fst ∧
      key ∉ (stakeWeights R t h minStake).map Weight.key := by
  have hevent : ⟨key, block⟩ ∈ t.slashEvents := by
    refine hreach.invariant ?_ fun s e s' _ hs he => slashEvents_step hs he
    unfold step at hslash
    split_ifs at hslash
    obtain ⟨⟩ := hslash
    exact mem_append_right _ mem_cons_self
  have hslashed : isPubkeySlashedAt t key h := any_eq_true.mpr ⟨_, hevent, by simp [hh]⟩
  refine ⟨by simp [hasCapability, hslashed], fun hkey => ?_, fun hkey => ?_⟩
  · rw [effectiveCapabilitySet_eq, mem_signerSet, viewAt_slashed, hslashed] at hkey
    cases hkey.1
  · rw [stakeWeights_eq, mem_weights, viewAt_slashed, hslashed] at hkey
    cases hkey.1

/-- The source tops the slashed key up; the new stake does not count. -/
theorem slashed_key_stays_out_topUp : ∃ s s' t, run (step Keys.rules) init History.settled = some s ∧
    step Keys.rules s (25, .slash 7 20) = some s' ∧
    step Keys.rules s' (26, .stake 1 7 50 true true) = some t ∧
    keyTotal Keys.rules t 90 7 = 50 ∧ hasCapability Keys.rules t 90 7 2 = false := by
  obtain ⟨s, hs, s', hs', t, ht, htotal⟩ : ∃ s, run (step Keys.rules) init History.settled = some s ∧
      ∃ s', step Keys.rules s (25, .slash 7 20) = some s' ∧
        ∃ t, step Keys.rules s' (26, .stake 1 7 50 true true) = some t ∧
          keyTotal Keys.rules t 90 7 = 50 := by decide +kernel
  exact ⟨s, s', t, hs, hs', ht, htotal,
    (slashed_key_stays_out hs' (Reaches.init.next trivial ht) (by decide) 2).1⟩

end XChainIndexer.Staking.Membership
