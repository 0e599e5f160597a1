import XChainIndexer.Rollcalls.Evictions
import XChainIndexer.Staking.Moves

/-! # A signing key has one source

The checks of STAKE and DELEGATE read different windows of the rows of a key: every row, the rows not
yet past their cooldown, the rows not yet deactivated. `key_of_one_source`: together they keep the rows
of different sources under one key apart, so at no height does a key sign for two sources. -/

namespace XChainIndexer.Staking.Keys

open Lib.Leases Lib.Run Staking.Tables List Staking.Reads Staking.Capability Staking.Moves
open Rollcalls.Close (Tables)

/-- The sources that have an active stake row or an active delegation under a key. -/
def holders (s : State) (h key : ℕ) : List ℕ :=
  (s.tables.stakes.filter fun r => r.key = key && stakeActive h r).map Stake.source ++
    (s.tables.delegations.filter fun d => d.key = key && delegationActive h d).map Delegation.source

/-- The capability rows, as leases. -/
def leases (t : Tables) : List (Lease ℕ ℕ) :=
  (t.stakes.filter fun r => r.slot = .capability).map stakeLease ++
    (t.delegations.filter fun d => d.slot = .capability).map delegationLease

variable {t : Tables} {x : Lease ℕ ℕ}

theorem mem_leases : x ∈ leases t ↔ (∃ r ∈ t.stakes, r.slot = .capability ∧ stakeLease r = x) ∨
      ∃ d ∈ t.delegations, d.slot = .capability ∧ delegationLease d = x := by
  simp [leases, and_assoc]

variable {delegations : List Delegation} {stakes : List Stake} {t' : Tables} {stop : ℕ}

/-- A row after an action was there before it, or it is one that the action opened. -/
theorem mem_leases_of_kept (hkept : Kept stop t t' stakes delegations) {x' : Lease ℕ ℕ}
    (hx' : x' ∈ leases t') : (∃ x ∈ leases t, Ends stop x x') ∨ (∃ r ∈ stakes, stakeLease r = x') ∨
      ∃ d ∈ delegations, delegationLease d = x' := by
  obtain ⟨⟨f, hf, hst⟩, ⟨g, hg, hdel⟩, -⟩ := hkept
  rcases mem_leases.mp hx' with ⟨r', hr', hslot, rfl⟩ | ⟨d', hd', hslot, rfl⟩
  · rw [hst, mem_append, mem_map] at hr'
    rcases hr' with ⟨r, hr, rfl⟩ | hnew
    · rw [(hf r).slot] at hslot
      exact .inl ⟨_, mem_leases.mpr (.inl ⟨r, hr, hslot, rfl⟩), (hf r).lease⟩
    · exact .inr (.inl ⟨r', hnew, rfl⟩)
  · rw [hdel, mem_append, mem_map] at hd'
    rcases hd' with ⟨d, hd, rfl⟩ | hnew
    · rw [(hg d).slot] at hslot
      exact .inl ⟨_, mem_leases.mpr (.inr ⟨d, hd, hslot, rfl⟩), (hg d).lease⟩
    · exact .inr (.inr ⟨d', hnew, rfl⟩)

/-! ### What the checks say -/

section checks

variable {R : Rules} {s : State} {source key block : ℕ} {total : ℚ} {mode : Mode} {r : Stake}

theorem not_counted_of_read (h : getActiveStakeByPubkey R s key mode = none)
    (hr : r ∈ s.tables.stakes) (hslot : r.slot = .capability) (hkey : r.key = key) :
    stakeModeFilter R mode r = false := by
  have hnil := map_eq_nil_iff.mp (min?_eq_none_iff.mp (Option.map_eq_none_iff.mp h))
  have hnot := filter_eq_nil_iff.mp hnil r hr
  simpa [hslot, hkey] using hnot

theorem stopped_of_not_blocking (h : stakeModeFilter R (.reuseBlockingOnly block) r = false) :
    StoppedBy (stakeLease r) block := by
  simp only [stakeModeFilter, Option.all_eq_false] at h
  obtain ⟨d, hd, hle⟩ := h
  refine ⟨d, hd, ?_⟩
  simp only [decide_eq_false_iff_not, not_lt] at hle
  omega

theorem stopped_of_no_delegation (h : getDelegationByPubkey s key block = false) {d : Delegation}
    (hd : d ∈ s.tables.delegations) (hslot : d.slot = .capability) (hkey : d.key = key) :
    StoppedBy (delegationLease d) block := by
  have hnot := any_eq_false.mp h d hd
  simp only [hslot, hkey, decide_true, Bool.true_and, Bool.not_eq_true, Option.all_eq_false] at hnot
  obtain ⟨e, he, hle⟩ := hnot
  exact ⟨e, he, by simpa using hle⟩

theorem stopped_of_validateFreeKey (h : validateFreeKey R s key block)
    (hx : x ∈ leases s.tables) (hkey : x.key = key) : StoppedBy x block := by
  simp only [validateFreeKey, Bool.and_eq_true, Option.isNone_iff_eq_none, Bool.not_eq_true'] at h
  rcases mem_leases.mp hx with ⟨r, hr, hslot, rfl⟩ | ⟨d, hd, hslot, rfl⟩
  · have hnot := not_counted_of_read h.1 hr hslot hkey
    split_ifs at hnot
    · exact stopped_of_not_blocking hnot
    · -- below the gate a key that was ever staked is not free
      cases hnot
  · exact stopped_of_no_delegation h.2 hd hslot hkey

theorem exists_lease_of_read (hmode : mode = .active block ∨ mode = .undeactivatedOnly block)
    (h : getActiveStakeByPubkey R s key mode = some (source, total)) :
    ∃ x ∈ leases s.tables, x.key = key ∧ x.owner = source ∧ ¬StoppedBy x block := by
  obtain ⟨source', hmin, heq⟩ := Option.map_eq_some_iff.mp h
  obtain rfl : source' = source := congrArg Prod.fst heq
  obtain ⟨r, hr, hsource⟩ := mem_map.mp (min?_mem hmin)
  simp only [mem_filter, Bool.and_eq_true, decide_eq_true_eq] at hr
  obtain ⟨hr, ⟨hslot, hkey⟩, hcounted⟩ := hr
  refine ⟨stakeLease r, mem_leases.mpr (.inl ⟨r, hr, hslot, rfl⟩), hkey, hsource, ?_⟩
  rintro ⟨d, hd, hle⟩
  replace hd : r.deactivation = some d := hd
  rcases hmode with rfl | rfl
  · simp only [stakeModeFilter, isActiveAt, hd, Option.all_some, Bool.and_eq_true,
      decide_eq_true_eq] at hcounted
    omega
  · simp [stakeModeFilter, hd] at hcounted

end checks

/-! ### Runs -/

variable {b : ℕ}

theorem exclusive_opened {l : Lease ℕ ℕ} (hex : Exclusive b (leases t))
    (hkept : Kept stop t t' stakes delegations) (hstart : b ≤ l.start)
    (hfree : ∀ x ∈ leases t, x.key = l.key → ¬StoppedBy x b → x.owner = l.owner)
    (hstakes : ∀ r ∈ stakes, stakeLease r = l)
    (hdelegations : ∀ d ∈ delegations, delegationLease d = l) : Exclusive b (leases t') := by
  refine hex.granted (e := stop) hstart hfree fun x' hx' => ?_
  rcases mem_leases_of_kept hkept hx' with hold | ⟨r, hr, rfl⟩ | ⟨d, hd, rfl⟩
  · exact .inr hold
  · exact .inl (hstakes r hr)
  · exact .inl (hdelegations d hd)

variable {R : Rules} {s s' : State}

theorem exclusive_acted (hex : Exclusive b (leases s.tables)) (hacted : Acted R b s s') :
    Exclusive b (leases s'.tables) := by
  obtain ⟨stakes, delegations, hmoved, hopened, -⟩ := hacted
  cases hopened with
  | nothing => exact hex.ended fun x' hx' => by simpa using mem_leases_of_kept hmoved.tables hx'
  | @staked source key amount hfree =>
    refine exclusive_opened hex hmoved.tables (Nat.le_add_right _ _) (fun x hx hkey hnot => ?_)
      (by simp only [mem_singleton, forall_eq]; rfl) (by simp)
    exact absurd (stopped_of_validateFreeKey hfree hx hkey) hnot
  | @added source key amount total mode hmode hread =>
    obtain ⟨y, hy, hykey, hyowner, hynot⟩ := exists_lease_of_read hmode hread
    refine exclusive_opened hex hmoved.tables (Nat.le_add_right _ _) (fun x hx hkey hnot => ?_)
      (by simp only [mem_singleton, forall_eq]; rfl) (by simp)
    exact (hex.owner_eq_of_not_stopped hx hy (hkey.trans hykey.symm) hnot hynot).trans hyowner
  | @delegated source key hstake hdelegation =>
    refine exclusive_opened hex hmoved.tables (Nat.le_add_right _ _) (fun x hx hkey hnot => ?_)
      (by simp) (by simp only [mem_singleton, forall_eq]; rfl)
    rcases mem_leases.mp hx with ⟨r, hr, hslot, rfl⟩ | ⟨d, hd, hslot, rfl⟩
    · cases not_counted_of_read hstake hr hslot hkey
    · exact absurd (stopped_of_no_delegation hdelegation hd hslot hkey) hnot

theorem leases_slash (R : Rules) (s : State) (offender resolveBlock block : ℕ) :
    leases (slash R s offender resolveBlock block).tables = leases s.tables := by
  simp only [leases, slash, slashCapabilityStake, filter_map, map_map, Function.comp_def,
    burn_slot, stakeLease_burn]

variable {e : ℕ × Event}

theorem block_le_of_step (hstep : step R s e = some s') : s.block ≤ e.1 := by
  unfold step at hstep
  split_ifs at hstep with hblock
  exact not_lt.mp hblock

theorem exclusive_step (hno : R.noReinsert e.1)
    (hstep : step R s e = some s') (hex : Exclusive s.block (leases s.tables)) :
    Exclusive s'.block (leases s'.tables) := by
  have hnow := hex.mono (block_le_of_step hstep)
  rcases step_cases hno hstep with hacted | ⟨offender, resolveBlock, rfl⟩
  · rw [hacted.block_eq]
    exact exclusive_acted (s := { s with block := e.1 }) hnow hacted
  · exact (leases_slash R { s with block := e.1 } offender resolveBlock e.1).symm ▸ hnow

variable {h : ℕ}

theorem mem_holders {key source : ℕ} : source ∈ holders s h key ↔
      ∃ x ∈ leases s.tables, x.key = key ∧ x.owner = source ∧ ActiveAt x h := by
  simp only [holders, mem_append, mem_map, mem_filter, Bool.and_eq_true,
    decide_eq_true_eq, stakeActive_iff, delegationActive_iff]
  constructor
  · rintro (⟨r, ⟨hr, hkey, hslot, hactive⟩, rfl⟩ | ⟨d, ⟨hd, hkey, hslot, hactive⟩, rfl⟩)
    · exact ⟨_, mem_leases.mpr (.inl ⟨r, hr, hslot, rfl⟩), hkey, rfl, hactive⟩
    · exact ⟨_, mem_leases.mpr (.inr ⟨d, hd, hslot, rfl⟩), hkey, rfl, hactive⟩
  · rintro ⟨x, hx, hkey, rfl, hactive⟩
    rcases mem_leases.mp hx with ⟨r, hr, hslot, rfl⟩ | ⟨d, hd, hslot, rfl⟩
    · exact .inl ⟨r, ⟨hr, hkey, hslot, hactive⟩, rfl⟩
    · exact .inr ⟨d, ⟨hd, hkey, hslot, hactive⟩, rfl⟩

theorem source_mem_holders {minStake : ℚ} {w : Weight} (hw : w ∈ stakeWeights R s h minStake) :
    w.source ∈ holders s h w.key := by
  obtain ⟨source, -, hw⟩ := mem_flatMap.mp hw
  obtain ⟨key, hkey, rfl⟩ := mem_map.mp hw
  rw [effectiveKeys, mem_dedup, mem_append, mem_map, mem_map] at hkey
  rw [holders, mem_append, mem_map, mem_map]
  rcases hkey with ⟨r, hr, rfl⟩ | ⟨d, hd, rfl⟩
  · simp only [mem_filter, Bool.and_eq_true, decide_eq_true_eq, signs] at hr
    exact .inl ⟨r, by simp [hr.1, hr.2.2.1.1], hr.2.1⟩
  · simp only [mem_filter, Bool.and_eq_true, decide_eq_true_eq, delegates] at hd
    exact .inr ⟨d, by simp [hd.1, hd.2.2.1], hd.2.1⟩

section
variable (hreach : Reaches (step R) (fun _ e => R.noReinsert e.1 = true) init s)
include hreach

theorem exclusive_of_reaches : Exclusive s.block (leases s.tables) := by
  induction hreach with
  | init => exact Exclusive.nil
  | next _ hno hstep ih => exact exclusive_step hno hstep ih

theorem holders_eq_of_reaches {key a : ℕ} (ha : a ∈ holders s h key) (hb : b ∈ holders s h key) : a = b := by
  obtain ⟨x, hx, hxkey, rfl, hxa⟩ := mem_holders.mp ha
  obtain ⟨y, hy, hykey, rfl, hya⟩ := mem_holders.mp hb
  exact (exclusive_of_reaches hreach).owner_eq hx hy (hxkey.trans hykey.symm) hxa hya

end

/-- **A key of one source.** However the rows of a key came to be, at every height they are active for
one source, and the stake weights credit the key to one source. -/
theorem key_of_one_source {R : Rules} {s : State}
    (hreach : Reaches (step R) (fun _ e => R.noReinsert e.1 = true) init s) (h : ℕ) :
    (∀ key, ∀ a ∈ holders s h key, ∀ b ∈ holders s h key, a = b) ∧
      ∀ minStake, ∀ w ∈ stakeWeights R s h minStake, ∀ w' ∈ stakeWeights R s h minStake,
        w.key = w'.key → w.source = w'.source := by
  refine ⟨fun key a ha b hb => holders_eq_of_reaches hreach ha hb, fun minStake w hw w' hw' hkey => ?_⟩
  exact holders_eq_of_reaches hreach (source_mem_holders hw) (hkey ▸ source_mem_holders hw')

def rules : Rules where
  config := Rollcalls.Evictions.venue
  keyReuse := fun _ => true
  noReinsert := fun _ => true
  partialUnstake := fun _ => true
  burnsPending := fun _ => true
  addBack := fun _ => true
  noReinsert_of_addBack := fun _ _ _ => rfl
  queryLimit := 1000
  sourceCap := fun _ => true
  addressOrder := fun _ source => source
  addressOrder_injective := fun _ _ _ h => h

/-- Source 1 gives key 7 up, and source 2 stakes with it once the cooldown is over; meanwhile source 1
has delegated to key 9, which is slashed. -/
def handedOver : List (ℕ × Event) :=
  [(1, .stake 1 7 5 false true), (8, .delegate 1 9 true), (8, .stake 2 7 5 false true),
    (9, .unstake 1 7 none true), (26, .stake 2 7 5 false true), (27, .slash 9 15)]

theorem key_of_one_source_handedOver :
    ∃ s, run (step rules) init handedOver = some s ∧ holders s 14 7 = [1] ∧ holders s 32 7 = [2] ∧
      ∀ a ∈ holders s 32 7, ∀ b ∈ holders s 32 7, a = b := by
  obtain ⟨s, hs, hholders⟩ : ∃ s, run (step rules) init handedOver = some s ∧
      holders s 14 7 = [1] ∧ holders s 32 7 = [2] := by decide +kernel
  exact ⟨s, hs, hholders.1, hholders.2,
    (key_of_one_source (Reaches.init.of_run (fun _ _ _ => rfl) hs) 32).1 7⟩

end XChainIndexer.Staking.Keys
