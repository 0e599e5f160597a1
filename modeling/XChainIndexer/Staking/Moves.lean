import XChainIndexer.Lib.Leases
import XChainIndexer.Staking.Capability

/-! # What an action does to the rows

A row is a lease of its signing key. Apart from a SLASH, an action writes to rows that are there only the
end they do not have yet, at the activation delay from its block, and it opens at most one row, which
begins there. `apply_moved` says so once for all of them, and `Opened` with which check the row was
let in. -/

namespace XChainIndexer.Staking.Moves

open Lib.Leases Staking.Tables Staking.Reads List Staking.Capability
open Rollcalls.Close (evictSource evictKey isSweepable)

/-! ### Rows as leases -/

def stakeLease (r : Stake) : Lease ℕ ℕ := ⟨r.key, r.source, r.activation, r.deactivation⟩

def delegationLease (d : Delegation) : Lease ℕ ℕ := ⟨d.key, d.source, d.activation, d.deactivation⟩

variable {h : ℕ}

theorem isActiveAt_iff {l : Lease ℕ ℕ} : isActiveAt h l.start l.stop ↔ ActiveAt l h := by
  simp [isActiveAt, ActiveAt, Option.all_eq_true]

variable {r : Stake}

theorem stakeActive_iff : stakeActive h r ↔ r.slot = .capability ∧ ActiveAt (stakeLease r) h := by
  rw [stakeActive, Bool.and_eq_true, decide_eq_true_eq, ← isActiveAt_iff]
  rfl

variable {d : Delegation}

theorem delegationActive_iff :
    delegationActive h d ↔ d.slot = .capability ∧ ActiveAt (delegationLease d) h := by
  rw [delegationActive, Bool.and_eq_true, decide_eq_true_eq, ← isActiveAt_iff]
  rfl

/-- A stake row after an action that may end it. -/
structure Carried (stop : ℕ) (r r' : Stake) : Prop where
  index : r'.index = r.index
  slot : r'.slot = r.slot
  amount : r'.amount = r.amount
  lease : Ends stop (stakeLease r) (stakeLease r')

/-- A delegation after an action that may end it. -/
structure CarriedDelegation (stop : ℕ) (d d' : Delegation) : Prop where
  index : d'.index = d.index
  slot : d'.slot = d.slot
  lease : Ends stop (delegationLease d) (delegationLease d')

theorem Carried.refl (stop : ℕ) (r : Stake) : Carried stop r r := ⟨rfl, rfl, rfl, .refl stop _⟩

variable {stop : ℕ}

theorem Carried.trans {r' r'' : Stake} (h : Carried stop r r') (h' : Carried stop r' r'') :
    Carried stop r r'' :=
  ⟨h'.index.trans h.index, h'.slot.trans h.slot, h'.amount.trans h.amount, h.lease.trans h'.lease⟩

theorem CarriedDelegation.refl (stop : ℕ) (d : Delegation) : CarriedDelegation stop d d :=
  ⟨rfl, rfl, .refl stop _⟩

theorem CarriedDelegation.trans {d' d'' : Delegation} (h : CarriedDelegation stop d d')
    (h' : CarriedDelegation stop d' d'') : CarriedDelegation stop d d'' :=
  ⟨h'.index.trans h.index, h'.slot.trans h.slot, h.lease.trans h'.lease⟩

theorem carried_stamp (stop : ℕ) (h : r.deactivation = none) :
    Carried stop r { r with deactivation := some stop } :=
  ⟨rfl, rfl, rfl, rfl, rfl, rfl, .inr ⟨h, rfl⟩⟩

theorem carriedDelegation_stamp (stop : ℕ) (h : d.deactivation = none) :
    CarriedDelegation stop d { d with deactivation := some stop } :=
  ⟨rfl, rfl, rfl, rfl, rfl, .inr ⟨h, rfl⟩⟩

section burn

variable (owner : Option ℕ) (offender block : ℕ) (burnPending : Bool) (r : Stake)

theorem burn_eq : burn owner offender block burnPending r =
    { r with amount := (burn owner offender block burnPending r).amount } := by
  unfold burn
  split_ifs <;> rfl

@[simp]
theorem burn_index : (burn owner offender block burnPending r).index = r.index := by rw [burn_eq]

@[simp]
theorem burn_slot : (burn owner offender block burnPending r).slot = r.slot := by rw [burn_eq]

@[simp]
theorem stakeLease_burn : stakeLease (burn owner offender block burnPending r) = stakeLease r := by
  rw [burn_eq]
  rfl

end burn

/-! ### Tables -/

/-- The rows of `t` are carried to `t'`, with new ones behind them. -/
structure Kept (stop : ℕ) (t t' : Rollcalls.Close.Tables) (stakes : List Stake)
    (delegations : List Delegation) : Prop where
  stakes : ∃ f, (∀ r, Carried stop r (f r)) ∧ t'.stakes = t.stakes.map f ++ stakes
  delegations : ∃ f, (∀ d, CarriedDelegation stop d (f d)) ∧
    t'.delegations = t.delegations.map f ++ delegations
  nextIndex : t.nextIndex ≤ t'.nextIndex

theorem Kept.refl (stop : ℕ) (t : Rollcalls.Close.Tables) : Kept stop t t [] [] :=
  ⟨⟨id, Carried.refl stop, by simp⟩, ⟨id, CarriedDelegation.refl stop, by simp⟩, le_rfl⟩

theorem Kept.trans {t t' t'' : Rollcalls.Close.Tables} (h : Kept stop t t' [] [])
    (h' : Kept stop t' t'' [] []) : Kept stop t t'' [] [] := by
  obtain ⟨⟨f, hf, hst⟩, ⟨g, hg, hdel⟩, hnext⟩ := h
  obtain ⟨⟨f', hf', hst'⟩, ⟨g', hg', hdel'⟩, hnext'⟩ := h'
  refine ⟨⟨f' ∘ f, fun r => (hf r).trans (hf' _), ?_⟩, ⟨g' ∘ g, fun d => (hg d).trans (hg' _), ?_⟩,
    hnext.trans hnext'⟩
  · rw [hst', hst, append_nil, append_nil, append_nil, map_map]
  · rw [hdel', hdel, append_nil, append_nil, append_nil, map_map]

section
variable (cfg : Rollcalls.Close.Config)

theorem evictKey_kept (source block : ℕ) (t : Rollcalls.Close.Tables)
    (group : ℕ × ℚ) : Kept (block + cfg.activationDelay) t (evictKey cfg source block t group) [] [] := by
  unfold evictKey
  dsimp only
  split_ifs with hpos
  · refine ⟨⟨_, fun r => ?_, (append_nil _).symm⟩, ⟨id, CarriedDelegation.refl _, by
      simp [Rollcalls.Close.setStakeDeactivationBySourceAndPubkey]⟩, Nat.le_succ _⟩
    split_ifs with htaken
    · refine carried_stamp _ ?_
      simp only [isSweepable, Bool.and_eq_true, Option.isNone_iff_eq_none] at htaken
      exact htaken.1.1.2
    · exact Carried.refl _ r
  · exact Kept.refl _ t

theorem evictSource_kept (block : ℕ) (t : Rollcalls.Close.Tables)
    (source : ℕ) : Kept (block + cfg.activationDelay) t (evictSource cfg block t source) [] [] := by
  unfold evictSource
  dsimp only
  split_ifs with hnone
  · exact Kept.refl _ t
  · have hkeys : ∀ (groups : List (ℕ × ℚ)) t, Kept (block + cfg.activationDelay) t
        (groups.foldl (evictKey cfg source block) t) [] [] := by
      intro groups
      induction groups with
      | nil => exact Kept.refl _
      | cons g groups ih => exact fun t => (evictKey_kept cfg source block t g).trans (ih _)
    refine (hkeys _ t).trans ⟨⟨id, Carried.refl _, by
      simp [Rollcalls.Close.setAllDelegationDeactivationsBySource]⟩,
      ⟨_, fun d => ?_, (append_nil _).symm⟩, le_rfl⟩
    split_ifs with htaken
    · exact carriedDelegation_stamp _ htaken.2.2
    · exact CarriedDelegation.refl _ d

theorem evict_kept (block : ℕ) (sources : List ℕ) (t : Rollcalls.Close.Tables) :
    Kept (block + cfg.activationDelay) t (sources.foldl (evictSource cfg block) t) [] [] := by
  induction sources generalizing t with
  | nil => exact Kept.refl _ t
  | cons source sources ih => exact (evictSource_kept cfg block t source).trans (ih _)

end

/-! ### Actions -/

/-- What an action other than a SLASH may have done. -/
structure Moved (R : Rules) (block : ℕ) (s s' : State) (stakes : List Stake)
    (delegations : List Delegation) : Prop where
  tables : Kept (block + R.config.activationDelay) s.tables s'.tables stakes delegations
  revocations : ∃ rows, s'.revocations = s.revocations ++ rows ∧
    ∀ v ∈ rows, v.deactivation = block + R.config.activationDelay
  slashEvents : s'.slashEvents = s.slashEvents
  slashDebits : s'.slashDebits = s.slashDebits
  block : s'.block = s.block

/-- The row that a STAKE opens, and an UNSTAKE for what it leaves. -/
def openedStake (R : Rules) (s : State) (source key : ℕ) (amount : ℚ) (block : ℕ) : Stake :=
  ⟨s.tables.nextIndex, source, key, .capability, amount, block + R.config.activationDelay, none, block⟩

def openedDelegation (R : Rules) (s : State) (source key block : ℕ) : Delegation :=
  ⟨s.tables.nextIndex, source, key, .capability, block + R.config.activationDelay, none, block⟩

/-- The rows an action opens, with the check that let them in. -/
inductive Opened (R : Rules) (s : State) (block : ℕ) : List Stake → List Delegation → Prop
  | nothing : Opened R s block [] []
  | staked {source key : ℕ} {amount : ℚ} (h : validateFreeKey R s key block = true) :
      Opened R s block [openedStake R s source key amount block] []
  | added {source key : ℕ} {amount total : ℚ} {mode : Mode}
      (hmode : mode = .active block ∨ mode = .undeactivatedOnly block)
      (h : getActiveStakeByPubkey R s key mode = some (source, total)) :
      Opened R s block [openedStake R s source key amount block] []
  | delegated {source key : ℕ} (hstake : getActiveStakeByPubkey R s key .everHeld = none)
      (h : getDelegationByPubkey s key block = false) :
      Opened R s block [] [openedDelegation R s source key block]

/-- An action moved the rows and opened what its checks let in. -/
def Acted (R : Rules) (block : ℕ) (s s' : State) : Prop :=
  ∃ stakes delegations, Moved R block s s' stakes delegations ∧
    Opened R s block stakes delegations ∧
    (stakes = [] ∨ s'.tables.nextIndex = s.tables.nextIndex + 1)

variable {R : Rules} {s : State} {block : ℕ} {s' : State}

theorem Acted.block_eq (h : Acted R block s s') : s'.block = s.block := by
  obtain ⟨_, _, hmoved, -, -⟩ := h
  exact hmoved.block

theorem acted_takeIndex (R : Rules) (block : ℕ) (s : State) : Acted R block s (takeIndex s) :=
  ⟨[], [], ⟨⟨⟨id, Carried.refl _, by simp [takeIndex]⟩,
    ⟨id, CarriedDelegation.refl _, by simp [takeIndex]⟩, Nat.le_succ _⟩,
    ⟨[], by simp [takeIndex], by simp⟩, rfl, rfl, rfl⟩, .nothing, .inl rfl⟩

theorem createStake_acted {source key : ℕ} {amount : ℚ}
    (hopened : Opened R s block [openedStake R s source key amount block] []) :
    Acted R block s (takeIndex (createStake R s s.tables.nextIndex source key amount block)) := by
  refine ⟨[openedStake R s source key amount block], [],
    ⟨⟨⟨id, Carried.refl _, ?_⟩, ⟨id, CarriedDelegation.refl _, ?_⟩, Nat.le_succ _⟩,
      ⟨[], (append_nil _).symm, by simp⟩, rfl, rfl, rfl⟩, hopened, .inr rfl⟩
  · rw [map_id]
    rfl
  · rw [map_id, append_nil]
    rfl

section
variable (R : Rules) (s : State)

theorem stake_acted (source key : ℕ) (amount : ℚ) (block : ℕ) (topUp allowed : Bool) : Acted R block s
      (takeIndex (stake R s s.tables.nextIndex source key amount block topUp allowed)) := by
  unfold stake
  cases topUp with
  | false =>
    simp only [Bool.false_eq_true, if_false]
    split_ifs with hcheck
    · exact createStake_acted (.staked (Bool.and_eq_true_iff.mp hcheck).2)
    · exact acted_takeIndex R block s
  | true =>
    simp only [if_true]
    split_ifs with hcheck
    · obtain ⟨⟨owner, total⟩, howner, heq⟩ :=
        (Option.any_eq_true _ _).mp (Bool.and_eq_true_iff.mp hcheck).2
      obtain rfl : owner = source := of_decide_eq_true heq
      exact createStake_acted (.added (.inl rfl) howner)
    · exact acted_takeIndex R block s

section
variable (source key block : ℕ) (allowed : Bool)

theorem delegate_acted :
    Acted R block s (takeIndex (delegate R s s.tables.nextIndex source key block allowed)) := by
  unfold delegate
  split_ifs with hcheck
  · simp only [Bool.and_eq_true, Option.isNone_iff_eq_none, Bool.not_eq_true'] at hcheck
    obtain ⟨⟨⟨-, hstake⟩, hdelegation⟩, -⟩ := hcheck
    refine ⟨[], [openedDelegation R s source key block],
      ⟨⟨⟨id, Carried.refl _, ?_⟩, ⟨id, CarriedDelegation.refl _, ?_⟩, Nat.le_succ _⟩,
        ⟨[], ?_, by simp⟩, rfl, rfl, rfl⟩, .delegated hstake hdelegation, .inl rfl⟩
    · rw [map_id, append_nil]
      rfl
    · rw [map_id]
      rfl
    · rw [append_nil]
      rfl
  · exact acted_takeIndex R block s

theorem revoke_acted (hno : R.noReinsert block) :
    Acted R block s (takeIndex (revoke R s s.tables.nextIndex source key block allowed)) := by
  unfold revoke
  split_ifs with hallowed hactive
  · exact acted_takeIndex R block s
  · refine ⟨[], [], ⟨⟨⟨id, Carried.refl _, ?_⟩, ⟨_, fun d => ?_, (append_nil _).symm⟩,
      Nat.le_succ _⟩, ⟨[], (append_nil _).symm, by simp⟩, rfl, rfl, rfl⟩, .nothing, .inl rfl⟩
    · rw [map_id, append_nil]
      rfl
    · split_ifs with htaken
      · exact carriedDelegation_stamp _ htaken.2.2.2
      · exact CarriedDelegation.refl _ d
  · cases getActiveStakeBySourceAndPubkey s source key block with
    | none => exact acted_takeIndex R block s
    | some row =>
      dsimp only
      split_ifs with hprior
      · exact acted_takeIndex R block s
      · refine ⟨[], [], ⟨⟨⟨id, Carried.refl _, ?_⟩, ⟨id, CarriedDelegation.refl _, ?_⟩,
          Nat.le_succ _⟩, ⟨_, rfl, by simp⟩, rfl, rfl, rfl⟩, .nothing, .inl rfl⟩
        · rw [map_id, append_nil]
          rfl
        · rw [map_id, append_nil]
          rfl

end

theorem unstake_acted (source key : ℕ) (amount : Option ℚ) (block : ℕ) (allowed : Bool) : Acted R block s
      (takeIndex (unstake R s s.tables.nextIndex source key amount block allowed)) := by
  have hswept : ∀ r, Carried (block + R.config.activationDelay) r (if isSwept key block r then
        { r with deactivation := some (block + R.config.activationDelay) } else r) := by
    intro r
    split_ifs with htaken
    · simp only [isSwept, Bool.and_eq_true, Option.isNone_iff_eq_none] at htaken
      exact carried_stamp _ htaken.2.2
    · exact Carried.refl _ r
  unfold unstake
  split
  · exact acted_takeIndex R block s
  · rename_i owner total hread
    split_ifs with howner
    · obtain ⟨rfl, -⟩ : owner = source ∧ allowed := by simpa using howner
      split
      · exact acted_takeIndex R block s
      · rename_i requested _
        cases requested with
        | none =>
          refine ⟨[], [], ⟨⟨⟨_, hswept, (append_nil _).symm⟩,
            ⟨id, CarriedDelegation.refl _, ?_⟩, Nat.le_succ _⟩, ⟨[], (append_nil _).symm, by simp⟩,
            rfl, rfl, rfl⟩, .nothing, .inl rfl⟩
          rw [map_id, append_nil]
          rfl
        | some x =>
          refine ⟨[openedStake R s owner key (Bcmath.format (Bcmath.bcsub total x 8) 8) block], [],
            ⟨⟨⟨_, hswept, rfl⟩, ⟨id, CarriedDelegation.refl _, ?_⟩, Nat.le_succ _⟩,
            ⟨[], (append_nil _).symm, by simp⟩, rfl, rfl, rfl⟩, .added (.inr rfl) hread, .inr rfl⟩
          rw [map_id, append_nil]
          rfl
    · exact acted_takeIndex R block s

/-- **What an action does.** -/
theorem apply_acted (block : ℕ) {e : Event}
    (hno : R.noReinsert block) (hslash : ∀ offender resolveBlock, e ≠ .slash offender resolveBlock) :
    Acted R block s (apply R s block e) := by
  cases e with
  | stake source key amount topUp allowed => exact stake_acted R s source key amount block topUp allowed
  | delegate source key allowed => exact delegate_acted R s source key block allowed
  | revoke source key allowed => exact revoke_acted R s source key block allowed hno
  | unstake source key amount allowed => exact unstake_acted R s source key amount block allowed
  | evict sources =>
    exact ⟨[], [], ⟨evict_kept R.config block sources s.tables, ⟨[], by simp [apply], by simp⟩,
      rfl, rfl, rfl⟩, .nothing, .inl rfl⟩
  | slash offender resolveBlock => exact absurd rfl (hslash offender resolveBlock)
  | mature =>
    refine ⟨[], [], ⟨⟨⟨id, Carried.refl _, ?_⟩, ⟨id, CarriedDelegation.refl _, ?_⟩, le_rfl⟩,
      ⟨[], by simp [apply, markCooldownsCompleted], by simp⟩, rfl, rfl, rfl⟩, .nothing, .inl rfl⟩
    · simp [apply, markCooldownsCompleted]
    · simp [apply, markCooldownsCompleted]
  | other => exact acted_takeIndex R block s

end

theorem step_cases {e : ℕ × Event} (hno : R.noReinsert e.1) (hstep : step R s e = some s') :
    Acted R e.1 { s with block := e.1 } s' ∨ ∃ offender resolveBlock,
      s' = takeIndex (slash R { s with block := e.1 } offender resolveBlock e.1) := by
  obtain ⟨block, ev⟩ := e
  unfold step at hstep
  split_ifs at hstep with hblock
  obtain ⟨⟩ := hstep
  by_cases hslash : ∃ offender resolveBlock, ev = .slash offender resolveBlock
  · obtain ⟨offender, resolveBlock, rfl⟩ := hslash
    exact .inr ⟨offender, resolveBlock, rfl⟩
  · push Not at hslash
    exact .inl (apply_acted R _ block hno hslash)

end XChainIndexer.Staking.Moves
