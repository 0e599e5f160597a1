import XChainIndexer.Staking.Keys
import XChainIndexer.Staking.Views

/-! # Reads of a past height

The reads are over rows that later blocks write to: a stake row gets its end, a slash sets its amount
to 0, a key is revoked or barred. `reads_stable`: with the add-back of later slashes armed at a height,
nothing a later block does changes the signer set or a stake weight read there. Ends, revocations and
bars set in a later block begin above the height, and what a slash takes from a row it records, under
the row's own index. -/

namespace XChainIndexer.Staking.History

open Lib.Decimal Lib.Run List Lib.SumOver Staking.Tables Staking.Reads
open Staking.Capability Staking.Moves Staking.Views

/-! ### The index of a stake row -/

/-- Every stake row has an index of its own, below the next one. -/
structure Indexed (s : State) : Prop where
  nodup : (s.tables.stakes.map Stake.index).Nodup
  lt : ∀ r ∈ s.tables.stakes, r.index < s.tables.nextIndex

theorem Indexed.acted {R : Rules} {block : ℕ} {s s' : State} (hs : Indexed s)
    (hacted : Acted R block s s') : Indexed s' := by
  obtain ⟨stakes, delegations, hmoved, hopened, hnext⟩ := hacted
  obtain ⟨⟨f, hf, hst⟩, -, hle⟩ := hmoved.tables
  have hindex : (s.tables.stakes.map f).map Stake.index = s.tables.stakes.map Stake.index := by
    rw [map_map]
    exact map_congr_left fun r _ => (hf r).index
  have hnew : stakes = [] ∨ ∃ r, stakes = [r] ∧ r.index = s.tables.nextIndex := by
    cases hopened with
    | nothing => exact .inl rfl
    | staked _ => exact .inr ⟨_, rfl, rfl⟩
    | added _ _ => exact .inr ⟨_, rfl, rfl⟩
    | delegated _ _ => exact .inl rfl
  have hold : ∀ r ∈ s.tables.stakes.map f, r.index < s.tables.nextIndex := by
    intro r' hr'
    obtain ⟨r, hr, rfl⟩ := mem_map.mp hr'
    rw [(hf r).index]
    exact hs.lt r hr
  rcases hnew with rfl | ⟨r, rfl, hr⟩
  · rw [append_nil] at hst
    refine ⟨?_, fun r hr => ?_⟩
    · rw [hst, hindex]
      exact hs.nodup
    · exact (hold r (hst ▸ hr)).trans_le hle
  · have hnext : s'.tables.nextIndex = s.tables.nextIndex + 1 := by simpa using hnext
    refine ⟨?_, fun r' hr' => ?_⟩
    · rw [hst, map_append, hindex, nodup_append]
      refine ⟨hs.nodup, by simp, fun i hi j hj hij => ?_⟩
      obtain ⟨r', hr', rfl⟩ := mem_map.mp hi
      obtain rfl : j = r.index := by simpa using hj
      have hlt := hs.lt r' hr'
      omega
    · rw [hst, mem_append, mem_singleton] at hr'
      rcases hr' with hr' | rfl
      · have hlt := hold r' hr'
        omega
      · omega

theorem Indexed.slash {s : State} (hs : Indexed s) (R : Rules) (offender resolveBlock block : ℕ) :
    Indexed (takeIndex (slash R s offender resolveBlock block)) := by
  refine ⟨?_, fun r' hr' => ?_⟩
  · simp only [takeIndex, Capability.slash, slashCapabilityStake, map_map, Function.comp_def, burn_index]
    exact hs.nodup
  · obtain ⟨r, hr, rfl⟩ := mem_map.mp hr'
    rw [burn_index]
    exact (hs.lt r hr).trans (Nat.lt_succ_self _)

/-! ### An action in a later block -/

section later

variable {R : Rules} {s s' : State} {h block : ℕ}

section
variable {stakes : List Stake} {delegations : List Delegation}
  (hmoved : Moved R block s s' stakes delegations) (hlater : h < block) {r r' : Stake}
  (hcarried : Carried (block + R.config.activationDelay) r r')
include hmoved hlater hcarried

theorem isRevoked_moved : isRevoked s' h r' = isRevoked s h r := by
  obtain ⟨rows, hrows, hstop⟩ := hmoved.revocations
  have hkey : r'.key = r.key := hcarried.lease.key
  have hsource : r'.source = r.source := hcarried.lease.owner
  have hnew : (rows.any fun v => v.source = r.source && v.key = r.key && v.deactivation ≤ h &&
      r.index < v.index) = false := by
    rw [any_eq_false]
    intro v hv
    have hnot : ¬v.deactivation ≤ h := by rw [hstop v hv]; omega
    simp [hnot]
  unfold isRevoked
  rw [hrows, any_append, hkey, hsource, hcarried.index, hnew, Bool.or_false]

theorem bondAt_moved : bondAt R s' h r' = bondAt R s h r := by
  have hkey : r'.key = r.key := hcarried.lease.key
  have hsource : r'.source = r.source := hcarried.lease.owner
  unfold bondAt stakeAmountAt laterBurns
  rw [isRevoked_moved hmoved hlater hcarried, hmoved.slashDebits, hcarried.amount, hcarried.index,
    hkey, hsource]

end

theorem viewAt_acted (hacted : Acted R block s s') (hlater : h < block) : viewAt R s' h = viewAt R s h := by
  obtain ⟨stakes, delegations, hmoved, hopened, -⟩ := hacted
  obtain ⟨⟨f, hf, hst⟩, ⟨g, hg, hdel⟩, -⟩ := hmoved.tables
  have hstop : h < block + R.config.activationDelay := by omega
  have hnoStakes : stakes.filter (stakeActive h) = [] := by
    cases hopened <;> simp [openedStake, stakeActive, isActiveAt, hstop]
  have hnoDelegations : delegations.filter (delegationActive h) = [] := by
    cases hopened <;> simp [openedDelegation, delegationActive, isActiveAt, hstop]
  unfold viewAt
  congr 1
  · rw [hst, filter_append, hnoStakes, append_nil, filter_map, map_map]
    rw [show stakeActive h ∘ f = stakeActive h from funext fun r => by
      rw [Function.comp_apply, Bool.eq_iff_iff, stakeActive_iff, stakeActive_iff, (hf r).slot,
        (hf r).lease.activeAt_iff hstop]]
    exact map_congr_left fun r _ => bondAt_moved hmoved hlater (hf r)
  · rw [hdel, filter_append, hnoDelegations, append_nil, filter_map, map_map]
    rw [show delegationActive h ∘ g = delegationActive h from funext fun d => by
      rw [Function.comp_apply, Bool.eq_iff_iff, delegationActive_iff, delegationActive_iff, (hg d).slot,
        (hg d).lease.activeAt_iff hstop]]
    refine map_congr_left fun d _ => ?_
    have hkey : (g d).key = d.key := (hg d).lease.key
    have hsource : (g d).source = d.source := (hg d).lease.owner
    rw [Function.comp_apply, hkey, hsource]
  · simp only [isPubkeySlashedAt, hmoved.slashEvents]

end later

/-! ### A slash in a later block -/

section slash

variable (R : Rules) {s : State} {h block : ℕ} (offender resolveBlock : ℕ)

theorem onGrid_laterBurns (s : State) (h index : ℕ) : OnGrid 8 (laterBurns s h index) := by
  refine onGrid_sum fun x hx => ?_
  obtain ⟨d, -, rfl⟩ := mem_map.mp hx
  exact onGrid_castAmount d.amount

theorem stakeAmountAt_eq {R : Rules} (hadd : R.addBack h) (s : State) (r : Stake) :
    stakeAmountAt R s h r = castAmount r.amount + laterBurns s h r.index := by
  rw [stakeAmountAt, if_pos hadd, castAmount_of_onGrid (onGrid_laterBurns s h r.index)]

variable {r : Stake}

theorem laterBurns_slash (hs : Indexed s) (hlater : h < block) (hr : r ∈ s.tables.stakes) :
    laterBurns (slash R s offender resolveBlock block) h r.index = laterBurns s h r.index +
      if isBurnt (getStakeSourceForDelegatedPubkey s offender resolveBlock) offender block
        (R.burnsPending block) r then castAmount r.amount else 0 := by
  simp only [laterBurns, slash, slashCapabilityStake]
  rw [sumOver_append_of_forall_not _ fun d hd => ?_, sumOver_append, sumOver_map, sumOver_reverse,
    sumOver_filter]
  · congr 1
    refine (sumOver_congr (fun x _ => ?_) fun x _ _ => rfl).trans (sumOver_key hs.nodup hr)
    simp [hlater]
  · obtain ⟨u, -, rfl⟩ := mem_map.mp hd
    simp

section
variable (hadd : R.addBack h) (hs : Indexed s) (hlater : h < block)
include hadd hs hlater

theorem bondAt_slash (hr : r ∈ s.tables.stakes) : bondAt R (slash R s offender resolveBlock block) h
      (burn (getStakeSourceForDelegatedPubkey s offender resolveBlock) offender block
        (R.burnsPending block) r) = bondAt R s h r := by
  have hamount := laterBurns_slash R offender resolveBlock hs hlater hr
  simp only [bondAt, Bond.mk.injEq]
  refine ⟨by rw [burn_eq], by rw [burn_eq], ?_, by rw [burn_eq]; rfl⟩
  rw [stakeAmountAt_eq hadd, stakeAmountAt_eq hadd, burn_index, hamount, burn]
  split_ifs
  · rw [castAmount_of_onGrid (onGrid_zero 8)]
    ring
  · ring

theorem viewAt_slash : viewAt R (slash R s offender resolveBlock block) h = viewAt R s h := by
  unfold viewAt
  congr 1
  · simp only [slash, slashCapabilityStake, filter_map, map_map]
    have hactive : ∀ r, (stakeActive h ∘ burn (getStakeSourceForDelegatedPubkey s offender resolveBlock)
        offender block (R.burnsPending block)) r = stakeActive h r := by
      intro r
      rw [Function.comp_apply, Bool.eq_iff_iff, stakeActive_iff, stakeActive_iff, burn_slot, stakeLease_burn]
    rw [show _ ∘ _ = _ from funext hactive]
    refine map_congr_left fun r hr => ?_
    exact bondAt_slash R offender resolveBlock hadd hs hlater (mem_filter.mp hr).1
  · have hnot : ¬block ≤ h := by omega
    simp [isPubkeySlashedAt, slash, slashCapabilityStake, hnot]

end

end slash

/-! ### Runs -/

section
variable {R : Rules} {s s' : State} {e : ℕ × Event}

theorem Indexed.step (hs : Indexed s)
    (hno : R.noReinsert e.1) (hstep : step R s e = some s') : Indexed s' := by
  have hs' : Indexed { s with block := e.1 } := ⟨hs.nodup, hs.lt⟩
  rcases step_cases hno hstep with hacted | ⟨offender, resolveBlock, rfl⟩
  · exact hs'.acted hacted
  · exact hs'.slash R offender resolveBlock e.1

theorem viewAt_step {h : ℕ} (hadd : R.addBack h)
    (hs : Indexed s) (hlater : h < e.1) (hstep : step R s e = some s') : viewAt R s' h = viewAt R s h := by
  have hs' : Indexed { s with block := e.1 } := ⟨hs.nodup, hs.lt⟩
  rcases step_cases (R.noReinsert_of_addBack h e.1 hadd) hstep with
    hacted | ⟨offender, resolveBlock, rfl⟩
  · exact viewAt_acted (s := { s with block := e.1 }) hacted hlater
  · exact viewAt_slash R offender resolveBlock hadd hs' hlater

end

/-- **A past height does not change.** From any state of a run, whatever later blocks contain, the
signer set and the stake weights read at a height below them stay as they are. -/
theorem reads_stable {R : Rules} {s s' : State} {h : ℕ} (hadd : R.addBack h = true)
    (hreach : Reaches (step R) (fun _ _ => True) init s)
    (hlater : Reaches (step R) (fun _ e => h < e.1) s s') (minStake : ℚ) :
    effectiveCapabilitySet R s' h minStake = effectiveCapabilitySet R s h minStake ∧
      stakeWeights R s' h minStake = stakeWeights R s h minStake ∧
      ∀ source, sourceTotal R s' h source = sourceTotal R s h source := by
  have hno : ∀ b, R.noReinsert b = true := fun b => R.noReinsert_of_addBack h b hadd
  have hindexed : Indexed s :=
    hreach.invariant ⟨nodup_nil, by simp [init]⟩ fun _ _ _ _ hstep hs => hs.step (hno _) hstep
  have hsame : Indexed s' ∧ viewAt R s' h = viewAt R s h := by
    induction hlater with
    | init => exact ⟨hindexed, rfl⟩
    | next _ hblock hstep ih =>
      exact ⟨ih.1.step (hno _) hstep, (viewAt_step hadd ih.1 hblock hstep).trans ih.2⟩
  refine ⟨?_, ?_, fun source => ?_⟩
  · rw [effectiveCapabilitySet_eq, effectiveCapabilitySet_eq, hsame.2]
  · rw [stakeWeights_eq, stakeWeights_eq, hsame.2]
  · rw [← sourceStake_viewAt, ← sourceStake_viewAt, hsame.2]

/-- Two sources stake and one delegates. -/
def settled : List (ℕ × Event) :=
  [(1, .stake 1 7 5 false true), (2, .stake 2 8 3 false true), (8, .delegate 1 9 true), (20, .other)]

/-- Then one is slashed through its delegated key, the other takes a part out and is evicted. -/
def unsettled : List (ℕ × Event) :=
  [(25, .slash 9 20), (26, .unstake 2 8 (some 1) true), (27, .revoke 1 7 true), (30, .evict [2])]

theorem reads_stable_unsettled :
    ∃ s s', run (step Keys.rules) init settled = some s ∧
      run (step Keys.rules) s unsettled = some s' ∧
      effectiveCapabilitySet Keys.rules s 20 2 = [(7, 5), (8, 3), (9, 5)] ∧
      effectiveCapabilitySet Keys.rules s' 40 2 = [] ∧
      effectiveCapabilitySet Keys.rules s' 20 2 = effectiveCapabilitySet Keys.rules s 20 2 := by
  obtain ⟨s, hs, hread, s', hs', hafter⟩ : ∃ s, run (step Keys.rules) init settled = some s ∧
      effectiveCapabilitySet Keys.rules s 20 2 = [(7, 5), (8, 3), (9, 5)] ∧
        ∃ s', run (step Keys.rules) s unsettled = some s' ∧
          effectiveCapabilitySet Keys.rules s' 40 2 = [] := by decide +kernel
  have hlater : ∀ e ∈ unsettled, 20 < e.1 := by decide
  refine ⟨s, s', hs, hs', hread, hafter, ?_⟩
  exact (reads_stable rfl (Reaches.init.of_run (fun _ _ _ => trivial) hs)
    (Reaches.init.of_run (fun e he _ => hlater e he) hs') 2).1

end XChainIndexer.Staking.History
