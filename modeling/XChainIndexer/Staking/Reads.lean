import XChainIndexer.Lib.SumOver
import XChainIndexer.Lib.Window
import XChainIndexer.Rollcalls.Close

/-! # The capability reads

The reads of the signer set: `db/stakes/effective_set_sql.js`, `db/stakes/capability_membership.js`,
`db/stakes/slash_add_back.js`, the validator list of `db/stakes/active_stake.js` and the stake weights
of `db/database/stake_weights.js`.

Each read is for a height and a minimum stake. A stake row counts from its activation to its
deactivation, a delegated key likewise. `effectiveCapabilitySet` asks for the minimum per key,
`stakeWeights` per source, and `hasCapability` answers for one key with two sums of its own. -/

namespace XChainIndexer.Staking.Reads

open Lib.SumOver Lib.Window Staking.Tables

/-- A valid row of `stake_key_revocations`. -/
structure Revocation where
  index : ℕ
  source : ℕ
  key : ℕ
  deactivation : ℕ
  block : ℕ

/-- A row of `capability_slash_events`. -/
structure SlashEvent where
  key : ℕ
  block : ℕ

/-- `target_table` of a slash debit. -/
inductive DebitTable
  | stakes
  | unstakes
deriving DecidableEq

/-- A row of `capability_slash_debits`. -/
structure SlashDebit where
  table : DebitTable
  stakeIndex : ℕ
  amount : ℚ
  block : ℕ

/-- The tables the reads are over, and the block that is being applied. -/
structure State where
  block : ℕ
  tables : Rollcalls.Close.Tables
  revocations : List Revocation
  slashEvents : List SlashEvent
  slashDebits : List SlashDebit

/-- The rules of the network at each block, and its constants. -/
structure Rules where
  config : Rollcalls.Close.Config
  keyReuse : ℕ → Bool
  noReinsert : ℕ → Bool
  partialUnstake : ℕ → Bool
  burnsPending : ℕ → Bool
  /-- `slash_historical_set_activation`, judged at the height of the read. -/
  addBack : ℕ → Bool
  /-- The add-back has heights only on networks that never inserted a row on revoke. -/
  noReinsert_of_addBack : ∀ h b, addBack h = true → noReinsert b = true
  /-- `VALIDATOR_QUERY_LIMIT`. -/
  queryLimit : ℕ
  /-- `SWQ_SOURCE_CAP_ACTIVATION`. -/
  sourceCap : ℕ → Bool
  /-- The place of a source's address in the order of the collation at a block. -/
  addressOrder : ℕ → ℕ → ℕ
  addressOrder_injective : ∀ h, Function.Injective (addressOrder h)

/-! ### Rows at a height -/

/-- `activation_block <= h AND (deactivation_block IS NULL OR deactivation_block > h)`. -/
def isActiveAt (h activation : ℕ) (deactivation : Option ℕ) : Bool :=
  activation ≤ h && deactivation.all (h < ·)

def stakeActive (h : ℕ) (r : Stake) : Bool :=
  r.slot = .capability && isActiveAt h r.activation r.deactivation

def delegationActive (h : ℕ) (d : Delegation) : Bool :=
  d.slot = .capability && isActiveAt h d.activation d.deactivation

/-- A revocation counts for the stake rows before it. -/
def isRevoked (s : State) (h : ℕ) (r : Stake) : Bool :=
  s.revocations.any fun v =>
    v.source = r.source && v.key = r.key && v.deactivation ≤ h && r.index < v.index

def isPubkeySlashedAt (s : State) (key h : ℕ) : Bool :=
  s.slashEvents.any fun e => e.key = key && e.block ≤ h

/-- A stake row whose key signs at the height. -/
def signs (s : State) (h : ℕ) (r : Stake) : Bool :=
  stakeActive h r && !isRevoked s h r && !isPubkeySlashedAt s r.key h

/-- A delegation whose key signs at the height. -/
def delegates (s : State) (h : ℕ) (d : Delegation) : Bool :=
  delegationActive h d && !isPubkeySlashedAt s d.key h

/-- What slashes above the height took from a stake row. -/
def laterBurns (s : State) (h index : ℕ) : ℚ :=
  sumOver (fun d => castAmount d.amount)
    (fun d => d.table = .stakes && d.stakeIndex = index && h < d.block) s.slashDebits

/-- The amount of a stake row as the read sums it. -/
def stakeAmountAt (R : Rules) (s : State) (h : ℕ) (r : Stake) : ℚ :=
  castAmount r.amount + if R.addBack h then castAmount (laterBurns s h r.index) else 0

/-! ### The effective signer set -/

/-- The active stake under a key that is not revoked. -/
def keyTotal (R : Rules) (s : State) (h key : ℕ) : ℚ :=
  sumOver (stakeAmountAt R s h) (fun r => r.key = key && stakeActive h r && !isRevoked s h r)
    s.tables.stakes

def sourceTotal (R : Rules) (s : State) (h source : ℕ) : ℚ :=
  sumOver (stakeAmountAt R s h) (fun r => r.source = source && stakeActive h r) s.tables.stakes

def qualifyingSources (R : Rules) (s : State) (h : ℕ) (minStake : ℚ) : List ℕ :=
  ((s.tables.stakes.filter (stakeActive h)).map Stake.source).dedup.filter fun source =>
    castAmount minStake ≤ sourceTotal R s h source

/-- `effectiveCapabilitySetSql`: the stake keys that meet the minimum, and the delegated keys of the
sources that do. -/
def effectiveCapabilitySet (R : Rules) (s : State) (h : ℕ) (minStake : ℚ) : List (ℕ × ℚ) :=
  (((s.tables.stakes.filter (signs s h)).map Stake.key).dedup.map fun key =>
      (key, keyTotal R s h key)).filter (fun p => castAmount minStake ≤ p.2) ++
    (s.tables.delegations.filter fun d =>
      delegates s h d && d.source ∈ qualifyingSources R s h minStake).map fun d =>
        (d.key, sourceTotal R s h d.source)

/-- The keys of the effective set in order, each with its largest total, and whether the list is at
its limit. -/
def getValidatorsByCapability (R : Rules) (s : State) (h : ℕ) (minStake : ℚ) :
    List (ℕ × ℚ) × Bool :=
  let eff := effectiveCapabilitySet R s h minStake
  let rows := (((eff.map Prod.fst).dedup.insertionSort (· ≤ ·)).map fun key =>
    (key, (((eff.filter fun p => p.1 = key).map Prod.snd).max?).getD 0)).take R.queryLimit
  (rows, R.queryLimit ≤ rows.length)

/-! ### The stake weights -/

/-- A row of the stake-weight map. -/
structure Weight where
  key : ℕ
  source : ℕ
  weight : ℚ
deriving DecidableEq

/-- The keys that sign for a source. -/
def effectiveKeys (s : State) (h source : ℕ) : List ℕ :=
  ((s.tables.stakes.filter fun r => r.source = source && signs s h r).map Stake.key ++
    (s.tables.delegations.filter fun d => d.source = source && delegates s h d).map
      Delegation.key).dedup

/-- `stakeWeightsAtSql`: every effective key of a qualifying source, with the weight of the
source. -/
def stakeWeights (R : Rules) (s : State) (h : ℕ) (minStake : ℚ) : List Weight :=
  (qualifyingSources R s h minStake).flatMap fun source =>
    (effectiveKeys s h source).map fun key => ⟨key, source, sourceTotal R s h source⟩

def stakeWeightMaxSources : ℕ := 1000

def stakeWeightMaxKeysPerSource : ℕ := 64

/-- The rank of a row's source among the sources of the rows. -/
def sourceRank (R : Rules) (h : ℕ) (rows : List Weight) (w : Weight) : ℕ :=
  denseRank (fun w => R.addressOrder h w.source) rows (R.addressOrder h w.source)

/-- `cappedStakeWeightsSql`: the rows of the first sources, one more than the cap, and of each the
first keys. -/
def cappedStakeWeights (R : Rules) (h : ℕ) (rows : List Weight) (maxSources maxKeys : ℕ) :
    List Weight :=
  rows.filter fun w => sourceRank R h rows w ≤ maxSources + 1 &&
    rowNumber (fun w => R.addressOrder h w.source) Weight.key rows w ≤ maxKeys

/-- The rows within the cap, and whether a source was left out. -/
def capSources (R : Rules) (h : ℕ) (rows : List Weight) (maxSources maxKeys : ℕ) :
    List Weight × Bool :=
  let raw := cappedStakeWeights R h rows maxSources maxKeys
  let truncated := raw.any fun w => maxSources < sourceRank R h rows w
  (if truncated then raw.filter fun w => sourceRank R h rows w ≤ maxSources else raw, truncated)

/-- The order of the rows in the legacy query. -/
def weightLE (R : Rules) (h : ℕ) (w w' : Weight) : Prop :=
  R.addressOrder h w.source < R.addressOrder h w'.source ∨
    R.addressOrder h w.source = R.addressOrder h w'.source ∧ w.key ≤ w'.key

instance (R : Rules) (h : ℕ) : DecidableRel (weightLE R h) := fun w w' => by
  unfold weightLE; infer_instance

/-- `stakeWeightsWithCap`: under the cap on the sources, or below its height on the rows. -/
def stakeWeightsWithCap (R : Rules) (s : State) (h : ℕ) (minStake : ℚ) : List Weight × Bool :=
  let rows := stakeWeights R s h minStake
  if R.sourceCap h then capSources R h rows stakeWeightMaxSources stakeWeightMaxKeysPerSource
  else
    let raw := (rows.insertionSort (weightLE R h)).take R.queryLimit
    (raw, R.queryLimit ≤ raw.length)

/-! ### The membership test -/

/-- The active stake of a key that is not revoked meets the minimum; a sum over no row does not. -/
def stakeKeyQualifies (R : Rules) (s : State) (h key : ℕ) (minStake : ℚ) : Bool :=
  s.tables.stakes.any (fun r => r.key = key && stakeActive h r && !isRevoked s h r) &&
    minStake ≤ keyTotal R s h key

/-- A source that delegates to the key at the height. -/
def isDelegator (s : State) (h key source : ℕ) : Bool :=
  s.tables.delegations.any fun d => d.key = key && delegationActive h d && d.source = source

/-- The active stake of the sources that delegate to the key, in one sum. -/
def delegatedKeyQualifies (R : Rules) (s : State) (h key : ℕ) (minStake : ℚ) : Bool :=
  s.tables.stakes.any (fun r => stakeActive h r && isDelegator s h key r.source) &&
    minStake ≤ sumOver (stakeAmountAt R s h)
      (fun r => stakeActive h r && isDelegator s h key r.source) s.tables.stakes

def hasCapability (R : Rules) (s : State) (h key : ℕ) (minStake : ℚ) : Bool :=
  !isPubkeySlashedAt s key h &&
    (stakeKeyQualifies R s h key minStake || delegatedKeyQualifies R s h key minStake)

end XChainIndexer.Staking.Reads
