import XChainIndexer.Rollcalls.Close

/-! # What an eviction sweeps

`evictSource` adds up the rows of each signing key of a source once and then writes, key after key, a
cooldown row and the stamp on the rows it stands for. `evict_swept`: over all the sources of a close,
every key with stake gets one cooldown row, which holds what its rows held, and exactly the rows that
went into one are stamped. -/

namespace XChainIndexer.Rollcalls.Sweep

open Lib.Decimal Staking.Tables Rollcalls.Close List

/-- The stake rows of a source that are not deactivated. -/
def liveRows (t : Tables) (source : ℕ) : List Stake := t.stakes.filter (isSweepable source 0 true)

/-- What a source has staked under a key. -/
def held (t : Tables) (source key : ℕ) : ℚ := keyAmount (liveRows t source) key

/-- What the table holds altogether. -/
def staked (t : Tables) : ℚ := (t.stakes.map fun r => |castAmount r.amount|).sum

def amounts (rows : List Unstake) (source key : ℕ) : List ℚ :=
  (rows.filter fun u => u.source = source ∧ u.key = key).map Unstake.amount

/-- The row with the stamp of the close. -/
def stamp (cfg : Config) (closeBlock : ℕ) (r : Stake) : Stake :=
  { r with deactivation := some (closeBlock + cfg.activationDelay) }

/-- Every key of the sources with stake moved into one cooldown row. -/
structure Swept (cfg : Config) (closeBlock : ℕ) (sources : List ℕ) (t t' : Tables) : Prop where
  /-- The rows that went into a cooldown row are stamped, all others are as they were. -/
  stakes : t'.stakes = t.stakes.map fun r =>
    if r.slot = .capability ∧ r.deactivation = none ∧ r.source ∈ sources ∧
        0 < held t r.source r.key then stamp cfg closeBlock r
    else r
  /-- A key with stake gets one row, with all of it; nothing else gets a row. -/
  unstakes : ∃ rows, t'.unstakes = t.unstakes ++ rows ∧
    (∀ u ∈ rows, u.slot = .capability ∧ u.status = .valid ∧
      u.cooldownEnd = closeBlock + cfg.cooldownBlocks) ∧
    ∀ source key, amounts rows source key =
      if source ∈ sources ∧ 0 < held t source key then [held t source key] else []

variable {source : ℕ}

theorem isSweepable_iff {block : ℕ} {r : Stake} : isSweepable source block true r ↔
      r.slot = .capability ∧ r.source = source ∧ r.deactivation = none := by
  simp [isSweepable, and_assoc]

theorem isSweepable_block (source block : ℕ) : isSweepable source block true = isSweepable source 0 true := by
  funext r
  simp [isSweepable]

theorem isSweepable_stamp (cfg : Config) (source block closeBlock : ℕ) (r : Stake) :
    isSweepable source block true (stamp cfg closeBlock r) = false := by
  simp [isSweepable, stamp]

theorem amounts_append (rows rows' : List Unstake) (source key : ℕ) :
    amounts (rows ++ rows') source key = amounts rows source key ++ amounts rows' source key := by
  simp [amounts]

section
variable (t : Tables) (source key : ℕ)

theorem onGrid_held : OnGrid 8 (held t source key) := by
  refine onGrid_sum fun x hx => ?_
  obtain ⟨r, -, rfl⟩ := mem_map.mp hx
  exact onGrid_castAmount r.amount

theorem abs_held_le_staked : |held t source key| ≤ staked t := by
  have hsub : ((liveRows t source).filter fun r => r.key = key).Sublist t.stakes :=
    filter_sublist.trans filter_sublist
  calc |held t source key|
      ≤ (((liveRows t source).filter fun r => r.key = key).map fun r => |castAmount r.amount|).sum := by
        refine (le_sum_of_subadditive abs abs_zero.le abs_add_le _).trans_eq ?_
        rw [map_map]
        rfl
    _ ≤ staked t := (hsub.map _).sum_le_sum fun x hx => by
        obtain ⟨r, -, rfl⟩ := mem_map.mp hx
        exact abs_nonneg _

end

variable {t : Tables}

theorem exists_row_of_held_pos {key : ℕ} (h : 0 < held t source key) :
    ∃ r ∈ liveRows t source, r.key = key := by
  by_contra hno
  have hnil : (liveRows t source).filter (fun r => r.key = key) = [] := by
    simpa using hno
  rw [held, keyAmount, hnil] at h
  exact absurd h (by simp)

/-! ### One source -/

variable {g : ℕ × ℚ}

section
variable (cfg : Config) (source closeBlock : ℕ)

theorem evictKey_of_pos (t : Tables)
    (hg : Bcmath.format g.2 8 = g.2) (hpos : 0 < g.2) :
    (evictKey cfg source closeBlock t g).stakes = t.stakes.map (fun r =>
      if isSweepable source 0 true r = true ∧ r.key = g.1 then stamp cfg closeBlock r else r) ∧
    (evictKey cfg source closeBlock t g).unstakes = t.unstakes ++ [⟨t.nextIndex, source, g.1,
      .capability, g.2, closeBlock + cfg.cooldownBlocks, .valid, closeBlock⟩] := by
  simp only [evictKey, hg, hpos, if_true, setStakeDeactivationBySourceAndPubkey, and_true]
  rw [isSweepable_block]
  simp only [Bool.and_eq_true, decide_eq_true_eq, stamp]

theorem foldl_evictKey {groups : List (ℕ × ℚ)}
    (hexact : ∀ g ∈ groups, Bcmath.format g.2 8 = g.2) (t : Tables) :
    (groups.foldl (evictKey cfg source closeBlock) t).stakes = t.stakes.map (fun r =>
      if isSweepable source 0 true r = true ∧ ∃ g ∈ groups, g.1 = r.key ∧ 0 < g.2 then
        stamp cfg closeBlock r
      else r) ∧ ∃ rows, (groups.foldl (evictKey cfg source closeBlock) t).unstakes = t.unstakes ++ rows ∧
      (∀ u ∈ rows, u.slot = .capability ∧ u.status = .valid ∧
        u.cooldownEnd = closeBlock + cfg.cooldownBlocks) ∧ ∀ source' key, amounts rows source' key =
        if source' = source then (groups.filter fun g => g.1 = key ∧ 0 < g.2).map Prod.snd
        else [] := by
  induction groups generalizing t with
  | nil => exact ⟨by simp, [], by simp [amounts]⟩
  | cons g groups ih =>
    rw [forall_mem_cons] at hexact
    obtain ⟨hg, hrest⟩ := hexact
    obtain ⟨hstakes, rows, hrows, hcool, hamounts⟩ := ih hrest (evictKey cfg source closeBlock t g)
    rw [foldl_cons, hstakes, hrows]
    by_cases hpos : 0 < g.2
    · obtain ⟨hkeyStakes, hkeyRows⟩ := evictKey_of_pos cfg source closeBlock t hg hpos
      rw [hkeyStakes, hkeyRows, map_map, append_assoc]
      refine ⟨map_congr_left fun r _ => ?_, _, rfl, by simpa using hcool, fun source' key => ?_⟩
      · -- a row that has the stamp is not taken again
        rw [Function.comp_apply]
        by_cases htaken : isSweepable source 0 true r = true ∧ r.key = g.1
        · rw [if_pos htaken, if_neg (by simp [isSweepable_stamp]),
            if_pos ⟨htaken.1, g, mem_cons_self, htaken.2.symm, hpos⟩]
        · rw [if_neg htaken]
          refine if_congr (and_congr_right fun hsweep => ?_) rfl rfl
          have hkey : g.1 ≠ r.key := fun he => htaken ⟨hsweep, he.symm⟩
          simp [hkey]
      · rw [amounts_append, hamounts]
        by_cases hsource : source' = source
        · by_cases hkey : g.1 = key
          · simp [amounts, hsource, hkey, hpos]
          · simp [amounts, hsource, hkey]
        · simp [amounts, hsource, Ne.symm hsource]
    · have hkey : evictKey cfg source closeBlock t g = t := by simp only [evictKey, hg, hpos, if_false]
      rw [hkey]
      refine ⟨map_congr_left fun r _ => if_congr ?_ rfl rfl, rows, rfl, hcool, fun source' key => ?_⟩
      · simp [hpos]
      · simp [hamounts, hpos]

end

variable {closeBlock : ℕ}

theorem mem_groups : g ∈ getSweepableStakeBySource t source closeBlock true ↔
      (∃ r ∈ liveRows t source, r.key = g.1) ∧ g.2 = held t source g.1 := by
  obtain ⟨key, amount⟩ := g
  simp only [getSweepableStakeBySource, isSweepable_block source closeBlock, mem_map,
    mem_insertionSort, mem_dedup, Prod.mk.injEq, held, liveRows]
  constructor
  · rintro ⟨k, hk, rfl, rfl⟩
    exact ⟨hk, rfl⟩
  · rintro ⟨hk, rfl⟩
    exact ⟨key, hk, rfl, rfl⟩

theorem groups_at (t : Tables) (source closeBlock key : ℕ) :
    ((getSweepableStakeBySource t source closeBlock true).filter fun g => g.1 = key ∧ 0 < g.2).map
      Prod.snd = if 0 < held t source key then [held t source key] else [] := by
  have hnodup : (getSweepableStakeBySource t source closeBlock true).Nodup := by
    refine List.Nodup.map (fun k k' he => congrArg Prod.fst he) ?_
    exact (perm_insertionSort _ _).nodup_iff.mpr (nodup_dedup _)
  split_ifs with hpos
  · have hmem : (key, held t source key) ∈ getSweepableStakeBySource t source closeBlock true :=
      mem_groups.mpr ⟨exists_row_of_held_pos hpos, rfl⟩
    have honly : ((getSweepableStakeBySource t source closeBlock true).filter
        fun g => g.1 = key ∧ 0 < g.2) = [(key, held t source key)] := by
      refine perm_singleton.mp ((perm_ext_iff_of_nodup (hnodup.filter _)
        (nodup_singleton _)).mpr fun g => ?_)
      rw [mem_filter, mem_singleton, decide_eq_true_eq]
      constructor
      · rintro ⟨hg, rfl, -⟩
        exact Prod.ext rfl (mem_groups.mp hg).2
      · rintro rfl
        exact ⟨hmem, rfl, hpos⟩
    rw [honly]
    rfl
  · rw [map_eq_nil_iff, filter_eq_nil_iff]
    intro g hg hat
    obtain ⟨rfl, hgpos⟩ := of_decide_eq_true hat
    rw [(mem_groups.mp hg).2] at hgpos
    exact hpos hgpos

theorem evictSource_swept (cfg : Config) (closeBlock : ℕ) (t : Tables) (source : ℕ)
    (hrange : ∀ key, |held t source key| < 10 ^ 46) :
    Swept cfg closeBlock [source] t (evictSource cfg closeBlock t source) := by
  set groups := getSweepableStakeBySource t source closeBlock true with hgroups
  have hexact : ∀ g ∈ groups, Bcmath.format g.2 8 = g.2 := by
    intro g hg
    rw [(mem_groups.mp hg).2]
    exact Bcmath.format_of_onGrid (onGrid_held t source g.1) (by norm_num) le_rfl (hrange g.1)
  obtain ⟨hstakes, rows, hrows, hcool, hamounts⟩ :=
    foldl_evictKey cfg source closeBlock hexact t
  have hfold : Swept cfg closeBlock [source] t (groups.foldl (evictKey cfg source closeBlock) t) := by
    constructor
    · rw [hstakes]
      refine map_congr_left fun r hr => if_congr ?_ rfl rfl
      rw [isSweepable_iff]
      constructor
      · rintro ⟨⟨hslot, hsource, hlive⟩, g, hg, hkey, hpos⟩
        rw [(mem_groups.mp hg).2, hkey] at hpos
        exact ⟨hslot, hlive, by simp [hsource], hsource ▸ hpos⟩
      · rintro ⟨hslot, hlive, hsource, hpos⟩
        rw [mem_singleton] at hsource
        rw [hsource] at hpos
        exact ⟨⟨hslot, hsource, hlive⟩, (r.key, held t source r.key),
          mem_groups.mpr ⟨exists_row_of_held_pos hpos, rfl⟩, rfl, hpos⟩
    · refine ⟨rows, hrows, hcool, fun source' key => ?_⟩
      rw [hamounts]
      by_cases hsource : source' = source
      · subst hsource
        rw [groups_at]
        simp
      · simp [hsource]
  unfold evictSource
  rw [← hgroups]
  dsimp only
  split_ifs with hnil
  · rw [hnil] at hfold
    exact hfold
  · exact ⟨hfold.stakes, hfold.unstakes⟩

/-! ### The sources of a close -/

variable {cfg : Config}

theorem held_of_swept {t' : Tables} (h : Swept cfg closeBlock [source] t t')
    {source' : ℕ} (hne : source' ≠ source) (key : ℕ) : held t' source' key = held t source' key := by
  have hrows : liveRows t' source' = liveRows t source' := by
    unfold liveRows
    rw [h.stakes]
    induction t.stakes with
    | nil => rfl
    | cons r rows ih =>
      rw [map_cons, filter_cons, filter_cons, ih]
      split_ifs with hstamped hsweep hsweep' hsweep'
      · simp [isSweepable_stamp] at hsweep
      · simp [isSweepable_stamp] at hsweep
      · exact absurd ((isSweepable_iff.mp hsweep').2.1.symm.trans (mem_singleton.mp hstamped.2.2.1)) hne
      all_goals rfl
  rw [held, held, hrows]

variable {sources : List ℕ}

theorem Swept.cons {t' t'' : Tables} (h : Swept cfg closeBlock [source] t t') (hnew : source ∉ sources)
    (h' : Swept cfg closeBlock sources t' t'') : Swept cfg closeBlock (source :: sources) t t'' := by
  have hheld : ∀ source' ∈ sources, ∀ key, held t' source' key = held t source' key :=
    fun source' hs key => held_of_swept h (fun he => hnew (he ▸ hs)) key
  obtain ⟨rows, hrows, hcool, hamounts⟩ := h.unstakes
  obtain ⟨rows', hrows', hcool', hamounts'⟩ := h'.unstakes
  constructor
  · rw [h'.stakes, h.stakes, map_map]
    refine map_congr_left fun r _ => ?_
    rw [Function.comp_apply]
    by_cases htaken : r.slot = .capability ∧ r.deactivation = none ∧ r.source ∈ [source] ∧
        0 < held t r.source r.key
    · have hstamped : (stamp cfg closeBlock r).deactivation ≠ none := by simp [stamp]
      rw [if_pos htaken, if_neg fun h => hstamped h.2.1]
      obtain ⟨hslot, hlive, hsource, hpos⟩ := htaken
      exact (if_pos ⟨hslot, hlive, mem_cons.mpr (.inl (mem_singleton.mp hsource)), hpos⟩).symm
    · -- a row that the first source leaves is one of the others' or nobody's
      rw [if_neg htaken]
      refine if_congr (and_congr_right fun hslot => and_congr_right fun hlive => ?_) rfl rfl
      constructor
      · rintro ⟨hsource, hpos⟩
        exact ⟨mem_cons_of_mem _ hsource, hheld r.source hsource r.key ▸ hpos⟩
      · rintro ⟨hsource, hpos⟩
        rcases mem_cons.mp hsource with rfl | hsource
        · exact absurd ⟨hslot, hlive, mem_singleton_self _, hpos⟩ htaken
        · exact ⟨hsource, (hheld r.source hsource r.key).symm ▸ hpos⟩
  · refine ⟨rows ++ rows', by rw [hrows', hrows, append_assoc], ?_, fun source' key => ?_⟩
    · intro u hu
      exact (mem_append.mp hu).elim (hcool u) (hcool' u)
    · rw [amounts_append, hamounts, hamounts']
      by_cases hsource : source' = source
      · subst hsource
        simp [hnew]
      · by_cases hin : source' ∈ sources
        · simp [hsource, hin, hheld source' hin]
        · simp [hsource, hin]

/-- **The sweep of a close.** -/
theorem evict_swept (cfg : Config) (closeBlock : ℕ) (hnodup : sources.Nodup)
    (t : Tables) (hrange : ∀ source ∈ sources, ∀ key, |held t source key| < 10 ^ 46) :
    Swept cfg closeBlock sources t (sources.foldl (evictSource cfg closeBlock) t) := by
  induction sources generalizing t with
  | nil => exact ⟨by simp, [], by simp [amounts]⟩
  | cons source sources ih =>
    rw [nodup_cons] at hnodup
    rw [forall_mem_cons] at hrange
    have hfirst := evictSource_swept cfg closeBlock t source hrange.1
    refine hfirst.cons hnodup.1 (ih hnodup.2 _ fun source' hs key => ?_)
    rw [held_of_swept hfirst (fun he => hnodup.1 (he ▸ hs))]
    exact hrange.2 source' hs key

end XChainIndexer.Rollcalls.Sweep
