import XChainIndexer.Staking.Reads

/-! # What the capability reads depend on

A read for a height looks at the stake rows active there, with the amount it sums and whether their key
is revoked, at the delegations active there, and at which keys are slashed. `View` is this and nothing
else; the reads of `Staking.Reads` are reads of the view (`effectiveCapabilitySet_eq`,
`stakeWeights_eq`, `hasCapability_eq`). -/

namespace XChainIndexer.Staking.Views

open Lib.SumOver Staking.Tables Staking.Reads List

/-- An active stake row. -/
structure Bond where
  key : ℕ
  source : ℕ
  amount : ℚ
  revoked : Bool

/-- An active delegation. -/
structure Grant where
  key : ℕ
  source : ℕ

/-- The stake at a height. -/
structure View where
  bonds : List Bond
  grants : List Grant
  slashed : ℕ → Bool

def bondAt (R : Rules) (s : State) (h : ℕ) (r : Stake) : Bond :=
  ⟨r.key, r.source, stakeAmountAt R s h r, isRevoked s h r⟩

def viewAt (R : Rules) (s : State) (h : ℕ) : View where
  bonds := (s.tables.stakes.filter (stakeActive h)).map (bondAt R s h)
  grants := (s.tables.delegations.filter (delegationActive h)).map fun d => ⟨d.key, d.source⟩
  slashed := fun key => isPubkeySlashedAt s key h

theorem viewAt_slashed (R : Rules) (s : State) (h key : ℕ) :
    (viewAt R s h).slashed key = isPubkeySlashedAt s key h := rfl

/-! ### Reads of a view -/

/-- The stake under a key that is not revoked. -/
def keyStake (v : View) (key : ℕ) : ℚ :=
  sumOver Bond.amount (fun b => b.key = key && !b.revoked) v.bonds

def sourceStake (v : View) (source : ℕ) : ℚ := sumOver Bond.amount (fun b => b.source = source) v.bonds

/-- The sources with the stake `min`. -/
def sourcesAbove (v : View) (min : ℚ) : List ℕ :=
  (v.bonds.map Bond.source).dedup.filter fun source => min ≤ sourceStake v source

def signerSet (v : View) (min : ℚ) : List (ℕ × ℚ) :=
  (((v.bonds.filter fun b => !b.revoked && !v.slashed b.key).map Bond.key).dedup.map fun key =>
      (key, keyStake v key)).filter (fun p => min ≤ p.2) ++
    (v.grants.filter fun g => !v.slashed g.key && g.source ∈ sourcesAbove v min).map fun g =>
      (g.key, sourceStake v g.source)

def keysOf (v : View) (source : ℕ) : List ℕ :=
  ((v.bonds.filter fun b => b.source = source && !b.revoked && !v.slashed b.key).map Bond.key ++
    (v.grants.filter fun g => g.source = source && !v.slashed g.key).map Grant.key).dedup

def weights (v : View) (min : ℚ) : List Weight :=
  (sourcesAbove v min).flatMap fun source =>
    (keysOf v source).map fun key => ⟨key, source, sourceStake v source⟩

def grantedBy (v : View) (key source : ℕ) : Bool :=
  v.grants.any fun g => g.key = key && g.source = source

/-- The two sums of the membership test. -/
def qualifies (v : View) (key : ℕ) (min : ℚ) : Bool :=
  !v.slashed key &&
    (v.bonds.any (fun b => b.key = key && !b.revoked) && min ≤ keyStake v key ||
      v.bonds.any (fun b => grantedBy v key b.source) &&
        min ≤ sumOver Bond.amount (fun b => grantedBy v key b.source) v.bonds)

/-! ### The reads of the code are reads of the view -/

variable (R : Rules) (s : State) (h : ℕ)

theorem sumOver_bonds (p : Bond → Bool) (q : Stake → Bool)
    (hpq : ∀ r, (stakeActive h r && p (bondAt R s h r)) = q r) :
    sumOver Bond.amount p (viewAt R s h).bonds = sumOver (stakeAmountAt R s h) q s.tables.stakes := by
  unfold sumOver viewAt
  rw [filter_map, filter_filter, map_map]
  refine congrArg List.sum (congrArg (List.map _) (filter_congr fun r _ => ?_))
  rw [← hpq r, Bool.and_comm]
  rfl

variable {α : Type}

theorem map_filter_bonds (p : Bond → Bool) (q : Stake → Bool) (f : Bond → α) (g : Stake → α)
    (hpq : ∀ r, (stakeActive h r && p (bondAt R s h r)) = q r) (hfg : ∀ r, f (bondAt R s h r) = g r) :
    ((viewAt R s h).bonds.filter p).map f = (s.tables.stakes.filter q).map g := by
  unfold viewAt
  rw [filter_map, filter_filter, map_map]
  have hfun : f ∘ bondAt R s h = g := funext hfg
  rw [hfun]
  refine congrArg (List.map _) (filter_congr fun r _ => ?_)
  rw [← hpq r, Bool.and_comm]
  rfl

theorem any_bonds (p : Bond → Bool) (q : Stake → Bool)
    (hpq : ∀ r, (stakeActive h r && p (bondAt R s h r)) = q r) :
    (viewAt R s h).bonds.any p = s.tables.stakes.any q := by
  unfold viewAt
  rw [any_map, any_filter]
  exact congrArg (List.any s.tables.stakes) (funext hpq)

theorem keyStake_viewAt (key : ℕ) : keyStake (viewAt R s h) key = keyTotal R s h key := by
  refine sumOver_bonds R s h _ _ fun r => ?_
  rw [← Bool.and_assoc, Bool.and_comm (stakeActive h r)]
  rfl

theorem sourceStake_viewAt (source : ℕ) : sourceStake (viewAt R s h) source = sourceTotal R s h source := by
  refine sumOver_bonds R s h _ _ fun r => ?_
  rw [Bool.and_comm]
  rfl

theorem sourcesAbove_viewAt (minStake : ℚ) :
    sourcesAbove (viewAt R s h) (castAmount minStake) = qualifyingSources R s h minStake := by
  have hsources : (viewAt R s h).bonds.map Bond.source =
      (s.tables.stakes.filter (stakeActive h)).map Stake.source := by
    simp only [viewAt, map_map]
    rfl
  simp only [sourcesAbove, hsources, sourceStake_viewAt]
  rfl

theorem map_filter_grants (p : Grant → Bool) (q : Delegation → Bool) (f : Grant → α)
    (g : Delegation → α) (hpq : ∀ d, (delegationActive h d && p ⟨d.key, d.source⟩) = q d)
    (hfg : ∀ d, f ⟨d.key, d.source⟩ = g d) :
    ((viewAt R s h).grants.filter p).map f = (s.tables.delegations.filter q).map g := by
  unfold viewAt
  rw [filter_map, filter_filter, map_map]
  have hfun : (f ∘ fun d : Delegation => ⟨d.key, d.source⟩) = g := funext hfg
  rw [hfun]
  refine congrArg (List.map _) (filter_congr fun d _ => ?_)
  rw [← hpq d, Bool.and_comm]
  rfl

theorem effectiveCapabilitySet_eq (minStake : ℚ) :
    effectiveCapabilitySet R s h minStake = signerSet (viewAt R s h) (castAmount minStake) := by
  unfold effectiveCapabilitySet signerSet
  congr 1
  · rw [map_filter_bonds R s h _ (signs s h) _ Stake.key (fun r => ?_) fun _ => rfl]
    · simp only [keyStake_viewAt]
    · simp only [signs, bondAt, viewAt_slashed, Bool.and_assoc]
  · refine (map_filter_grants R s h _ _ _ _ (fun d => ?_) fun d => ?_).symm
    · simp only [delegates, sourcesAbove_viewAt, viewAt_slashed, Bool.and_assoc]
    · simp only [sourceStake_viewAt]

theorem keysOf_viewAt (source : ℕ) : keysOf (viewAt R s h) source = effectiveKeys s h source := by
  unfold keysOf effectiveKeys
  rw [map_filter_bonds R s h _ (fun r => r.source = source && signs s h r) _ Stake.key (fun r => ?_)
      fun _ => rfl, map_filter_grants R s h _ (fun d => d.source = source && delegates s h d) _ Delegation.key
      (fun d => ?_) fun _ => rfl]
  · rw [Bool.and_left_comm]
    rfl
  · rw [Bool.and_assoc, Bool.and_left_comm, signs, Bool.and_assoc]
    rfl

theorem stakeWeights_eq (minStake : ℚ) :
    stakeWeights R s h minStake = weights (viewAt R s h) (castAmount minStake) := by
  simp only [stakeWeights, weights, sourcesAbove_viewAt, keysOf_viewAt, sourceStake_viewAt]

theorem grantedBy_viewAt (key source : ℕ) :
    grantedBy (viewAt R s h) key source = isDelegator s h key source := by
  unfold grantedBy isDelegator viewAt
  rw [any_map, any_filter]
  refine congrArg (List.any s.tables.delegations) (funext fun d => ?_)
  rw [Function.comp_apply, ← Bool.and_assoc, Bool.and_comm (delegationActive h d)]

theorem hasCapability_eq (key : ℕ) (minStake : ℚ) :
    hasCapability R s h key minStake = qualifies (viewAt R s h) key minStake := by
  unfold hasCapability qualifies stakeKeyQualifies delegatedKeyQualifies
  rw [keyStake_viewAt, any_bonds R s h (fun b => b.key = key && !b.revoked)
      (fun r => r.key = key && stakeActive h r && !isRevoked s h r) fun r => ?_,
    any_bonds R s h (fun b => grantedBy (viewAt R s h) key b.source)
      (fun r => stakeActive h r && isDelegator s h key r.source) fun r => ?_,
    sumOver_bonds R s h (fun b => grantedBy (viewAt R s h) key b.source)
      (fun r => stakeActive h r && isDelegator s h key r.source) fun r => ?_]
  · rfl
  · rw [grantedBy_viewAt]
    rfl
  · rw [grantedBy_viewAt]
    rfl
  · rw [← Bool.and_assoc, Bool.and_comm (stakeActive h r)]
    rfl

end XChainIndexer.Staking.Views
