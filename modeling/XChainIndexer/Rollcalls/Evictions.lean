import XChainIndexer.Rollcalls.Streaks
import XChainIndexer.Rollcalls.Sweep

/-! # Evictions are sound

Main result: `eviction_sound`, over every run of blocks, with whatever the blocks do to the stakes
between the closes. The sources evicted at a close have less than a third of the responsible stake
because they are absent and the present ones have more than two thirds. -/

namespace XChainIndexer.Rollcalls.Evictions

open IndexTables Lib.Run Quorum.Stake List Staking.Tables Rollcalls.Close Rollcalls.Streaks Rollcalls.Sweep

/-! ### The weight of the absent -/

theorem mem_addWeight {r : Readings} {weights weights' : List (Text × Text)} {src : Text}
    {v : Validator} (h : addWeight r weights src v = some weights') (src' : Text) :
    src' ∈ weights'.map Prod.fst ↔ src' = src ∨ src' ∈ weights.map Prod.fst := by
  unfold addWeight at h
  split_ifs at h with hany
  · obtain ⟨⟩ := h
    obtain ⟨p, hp, he⟩ := any_eq_true.mp hany
    refine ⟨.inr, fun h => h.elim ?_ id⟩
    rintro rfl
    exact mem_map.mpr ⟨p, hp, of_decide_eq_true he⟩
  · obtain ⟨ws, -, rfl⟩ := Option.map_eq_some_iff.mp h
    simp [or_comm]

variable {cfg : Config}

/-- The quorum's index knows the keys and the sources of the responsible set. -/
theorem index_of_rows {rows : List Weight} {index index' : StakeIndex}
    (h : (rows.map fun v => some (⟨v.pubkey, some v.source, some v.weight⟩ : Validator)).foldlM
      (indexRow cfg.readings) index = some index') :
    index'.pubkeyToSource = Close.sourceOf cfg rows ++ index.pubkeyToSource ∧
      ∀ src, src ∈ index'.weightBySource.map Prod.fst ↔
        src ∈ rows.map Weight.source ∨ src ∈ index.weightBySource.map Prod.fst := by
  induction rows generalizing index with
  | nil =>
    obtain ⟨⟩ := h
    simp [Close.sourceOf]
  | cons v rows ih =>
    obtain ⟨next, hnext, hrest⟩ := Option.bind_eq_some_iff.mp h
    obtain ⟨hkeys, hsources⟩ := ih hrest
    simp only [indexRow, Option.bind_eq_bind, Option.bind_eq_some_iff, Option.pure_def,
      Option.some.injEq, readSource, Option.filter_eq_some_iff] at hnext
    obtain ⟨v', rfl, src, ⟨hsrc, -⟩, weights, hweights, rfl⟩ := hnext
    obtain ⟨⟩ := hsrc
    refine ⟨by rw [hkeys]; simp [Close.sourceOf], fun src => ?_⟩
    rw [hsources, mem_addWeight hweights, map_cons, mem_cons, ← or_assoc]
    rw [or_comm (a := src ∈ rows.map Weight.source)]

section Responsible
variable {cfg : Config} {responsible : Responsible} {index : StakeIndex}
  (hindex : indexStakeSources cfg.readings responsible.snapshot.rows = some index)
include hindex

theorem sources_eq : index.sources = (allSources responsible.rows).toFinset := by
  ext src
  rw [StakeIndex.sources, mem_toFinset, (index_of_rows hindex).2]
  simp [allSources]

theorem represented_eq {keys : List Text} (hlower : ∀ key ∈ keys, cfg.readings.toLowerCase key = key) :
    represented cfg.readings index keys = (presentSources cfg responsible.rows keys).toFinset := by
  have hkeys : index.pubkeyToSource = Close.sourceOf cfg responsible.rows := by
    rw [(index_of_rows hindex).1, append_nil]
  rw [represented]
  congr 1
  refine filterMap_congr fun key hkey => ?_
  rw [Quorum.Stake.sourceOf, hkeys, hlower key hkey]

end Responsible

variable {b : Block} {epoch : ℕ}

theorem lower_of_mem_signers {key : Text} (h : key ∈ signers cfg b epoch) :
    cfg.readings.toLowerCase key = key := by
  obtain ⟨v, -, rfl⟩ := mem_map.mp (mem_of_mem_filter h)
  exact cfg.lower_lower v.pubkey

/-- **The absent sources of a rolled epoch have less than a third of the stake.** -/
theorem absent_lt_third (hexact : b.responsible.snapshot.Exact cfg.readings)
    (hrolled : (outcome cfg b epoch).rolled) {sources : List Text}
    (hsub : sources ⊆ (outcome cfg b epoch).absent) :
    3 * ∑ source ∈ sources.toFinset, stakeOf cfg.readings b.responsible.snapshot source <
      ∑ source ∈ (allSources b.responsible.rows).toFinset,
        stakeOf cfg.readings b.responsible.snapshot source := by
  obtain ⟨index, hindex⟩ := exists_index_of_meets hrolled
  have hok := indexStakeSources_ok hindex
  obtain ⟨-, hnonneg, hlt⟩ := (meetsStakeThreshold_iff hindex (hexact index hindex) _).mp hrolled
  have hsources := sources_eq hindex
  have hpresent : represented cfg.readings index (signers cfg b epoch) =
      (present cfg b epoch).toFinset := represented_eq hindex fun _ => lower_of_mem_signers
  have hstake : stakeOf cfg.readings b.responsible.snapshot = weightOf index := by
    funext source
    simp [stakeOf, hindex]
  have hrep : represented cfg.readings index (signers cfg b epoch) ⊆ index.sources :=
    represented_subset hok _
  have hout : sources.toFinset ⊆ index.sources \ represented cfg.readings index (signers cfg b epoch) := by
    intro source hsource
    obtain ⟨hin, habsent⟩ := mem_filter.mp (hsub (mem_toFinset.mp hsource))
    rw [Finset.mem_sdiff, hsources, hpresent, mem_toFinset, mem_toFinset]
    exact ⟨(mem_insertionSort _).mp hin, of_decide_eq_true habsent⟩
  have hle := Finset.sum_le_sum_of_subset_of_nonneg hout fun source hs _ =>
    forall_sources hok hnonneg source (Finset.mem_sdiff.mp hs).1
  rw [Finset.sum_sdiff_eq_sub hrep] at hle
  rw [hstake, ← hsources]
  linarith

/-! ### The close -/

/-- **Evictions are sound.** At the end of any run of blocks, the close of the next one evicts a source
only if the epoch rolled and the source was absent at its last `evictMisses` rolled epochs; an epoch that
did not roll evicts nobody and changes no streak; the evicted sources have less than a third of the stake
of the responsible ones; and what they hold under a key moves into one cooldown row. -/
theorem eviction_sound {cfg : Config} {bs : List Block} {s : State}
    (hrun : run (step cfg) init bs = some s) {b : Block} {c : Closed}
    (hclose : closeRollcallEpochs cfg s b = some c)
    (hexact : b.responsible.snapshot.Exact cfg.readings)
    (hrange : staked b.tables < 10 ^ 46) :
    (∀ source ∈ c.evictedSources, ∃ o, outcomeAt cfg (bs.length + 1) b = some o ∧ o.rolled = true ∧
      source ∈ o.absent ∧ Missed (history cfg (bs ++ [b])) source evictMisses) ∧
    (∀ o, outcomeAt cfg (bs.length + 1) b = some o → o.rolled = false →
      c.evictedSources = [] ∧ c.state.tables = b.tables ∧ c.state.absences = s.absences ∧
        ∀ epoch limit, getRolledRollcallEpochs c.state.rollcalls epoch limit =
          getRolledRollcallEpochs s.rollcalls epoch limit) ∧
    (c.evictedSources ≠ [] →
      3 * ∑ source ∈ c.evictedSources.toFinset, stakeOf cfg.readings b.responsible.snapshot source <
        ∑ source ∈ (allSources b.responsible.rows).toFinset,
          stakeOf cfg.readings b.responsible.snapshot source) ∧
    Swept cfg (bs.length + 1) (c.evictedSources.map cfg.getAddressId) b.tables c.state.tables := by
  have hrec := recorded_run hrun
  have hcases := close_cases hclose
  rw [hrec.height] at hcases
  refine ⟨fun source hsource => missed_of_evicted hrec hclose hsource, ?_, ?_, ?_⟩
  · intro o ho hrolled
    rcases hcases with ⟨hnone, -⟩ | ⟨o', ho', ⟨-, rfl⟩ | ⟨hrolled', -⟩⟩
    · rw [ho] at hnone
      cases hnone
    · obtain rfl := Option.some.inj (ho.symm.trans ho')
      dsimp only [closeUnrolled]
      rw [insertRollcall_eq hrec ho, hrec.rollcalls, history_concat, ho]
      · simp [getRolledRollcallEpochs, rowOf, hrolled]
      · simp [rowOf, hrolled, epoch_of_outcomeAt ho]
    · obtain rfl := Option.some.inj (ho.symm.trans ho')
      rw [hrolled] at hrolled'
      cases hrolled'
  · intro hne
    obtain ⟨source, hsource⟩ := exists_mem_of_ne_nil _ hne
    obtain ⟨o, ho, hrolled, -, -⟩ := missed_of_evicted hrec hclose hsource
    have hoeq := (outcomeAt_eq_some.mp ho).2.2
    rw [hoeq] at hrolled
    refine absent_lt_third hexact hrolled fun source' hsource' => ?_
    obtain ⟨o', ho', -, habsent, -⟩ := missed_of_evicted hrec hclose hsource'
    obtain rfl := Option.some.inj (ho.symm.trans ho')
    rw [← hoeq]
    exact habsent
  · rcases hcases with ⟨-, rfl⟩ | ⟨o, -, ⟨-, rfl⟩ | ⟨-, rfl⟩⟩
    · exact evict_swept cfg _ nodup_nil _ (by simp)
    · exact evict_swept cfg _ nodup_nil _ (by simp)
    · refine evict_swept cfg _ (.map cfg.addressId_injective ((List.Nodup.filter _ ?_).filter _)) _
        fun source _ key => (abs_held_le_staked _ source key).trans_lt hrange
      exact (perm_insertionSort _ _).nodup_iff.mpr (nodup_dedup _)

/-! ### A run with an eviction -/

def textNumber : Text → ℕ
  | [] => 0
  | c :: t => textNumber t * 1114112 + (c.toNat + 1)

theorem textNumber_injective : Function.Injective textNumber := by
  intro t t' h
  induction t generalizing t' with
  | nil =>
    cases t' with
    | nil => rfl
    | cons c t' =>
      simp only [textNumber] at h
      omega
  | cons c t ih =>
    cases t' with
    | nil =>
      simp only [textNumber] at h
      omega
    | cons c' t' =>
      simp only [textNumber] at h
      have hc : c.toNat < 1114112 := by have := c.valid; unfold Char.toNat; grind
      have hc' : c'.toNat < 1114112 := by have := c'.valid; unfold Char.toNat; grind
      have heq : c.toNat = c'.toNat := by omega
      rw [ih (show textNumber t = textNumber t' by omega), Char.toNat_inj.mp heq]

/-- A venue on which an epoch closes at each block. -/
def venue : Config where
  isBtc := true
  activation := some 0
  interval := 1
  acceptWindow := 0
  proofDelay := 0
  cooldownBlocks := 10
  activationDelay := 6
  gatesActive := fun _ => false
  buriedSnapshotBlock := id
  readings := ⟨id, id⟩
  lower_lower := fun _ => rfl
  buildRollcallCanonical := fun _ ledgerHash _ => ledgerHash
  verify := fun canonical sig _ => canonical = sig
  getAddressId := textNumber
  addressId_injective := textNumber_injective

/-- A block at which `A` signs and `B`, with a fourth of the stake, does not. -/
def silentB : Block where
  tables := ⟨[⟨1, textNumber ['B'], 7, .capability, 2, 1, none, 1⟩,
    ⟨2, textNumber ['B'], 7, .capability, 3, 9, none, 1⟩,
    ⟨3, textNumber ['A'], 7, .capability, 15, 1, none, 1⟩], [], [], 4⟩
  responsible := ⟨[⟨['a'], ['A'], ['1', '5']⟩, ⟨['b'], ['B'], ['5']⟩], false⟩
  windowStored := true
  ledgerHash := some ['h']
  answer := some [(['a'], ⟨['h'], ['h'], none⟩)]
  rewardRefused := false

theorem silentB_exact : silentB.responsible.snapshot.Exact venue.readings := by
  intro index hindex
  obtain ⟨⟩ := hindex
  exact ⟨by decide +kernel, by decide +kernel⟩

/-- At the second epoch that `B` misses it is evicted, and both of its rows go into one. -/
theorem eviction_sound_silentB :
    ∃ s c, run (step venue) init [silentB] = some s ∧ closeRollcallEpochs venue s silentB = some c ∧
      c.evictedSources = [['B']] ∧
      Missed (history venue [silentB, silentB]) ['B'] evictMisses ∧
      c.state.tables.unstakes.map Unstake.amount = [5] := by
  obtain ⟨s, hs, c, hc, hevicted, hamount⟩ : ∃ s, run (step venue) init [silentB] = some s ∧
      ∃ c, closeRollcallEpochs venue s silentB = some c ∧ c.evictedSources = [['B']] ∧
        c.state.tables.unstakes.map Unstake.amount = [5] := by decide +kernel
  have hsound := eviction_sound hs hc silentB_exact (by decide +kernel)
  obtain ⟨o, -, -, -, hmissed⟩ := hsound.1 ['B'] (by rw [hevicted]; exact mem_singleton_self _)
  exact ⟨s, c, hs, hc, hevicted, hmissed, hamount⟩

end XChainIndexer.Rollcalls.Evictions
