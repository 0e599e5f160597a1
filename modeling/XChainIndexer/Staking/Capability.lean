import XChainIndexer.Staking.Reads

/-! # The capability stakes

The actions on capability stakes: STAKE (`actions/stake/capability_stake.js`), UNSTAKE
(`actions/unstake/`), DELEGATE and its revoke (`actions/delegate/`), the eviction of a roll call, the
burn of a SLASH (`db/stakes/capability_slash.js`) and the end of a cooldown.

An action that is refused uses up its action index and changes nothing else. Whether SOURCE has the
balance and is not asleep is an answer, `allowed`. The rows of a table are in the order of their action
indexes. -/

namespace XChainIndexer.Staking.Capability

open Lib.Decimal Staking.Tables Staking.Reads

/-! ### The reads of the handlers -/

/-- Which rows `getActiveStakeByPubkey` counts. -/
inductive Mode
  | everHeld
  | active (block : ℕ)
  | undeactivatedOnly (block : ℕ)
  | reuseBlockingOnly (block : ℕ)

def stakeModeFilter (R : Rules) (mode : Mode) (r : Stake) : Bool :=
  match mode with
  | .everHeld => true
  | .active block => isActiveAt block r.activation r.deactivation
  | .undeactivatedOnly block => r.activation ≤ block && r.deactivation.isNone
  | .reuseBlockingOnly block => r.deactivation.all (block < · + R.config.cooldownBlocks)

/-- The least source of the rows of a key and what they hold. -/
def getActiveStakeByPubkey (R : Rules) (s : State) (key : ℕ) (mode : Mode) : Option (ℕ × ℚ) :=
  let rows := s.tables.stakes.filter fun r =>
    r.slot = .capability && r.key = key && stakeModeFilter R mode r
  (rows.map Stake.source).min?.map fun source =>
    (source, (rows.map fun r => castAmount r.amount).sum)

/-- A source has an active stake row. -/
def getActiveStakeBySource (s : State) (source block : ℕ) : Bool :=
  s.tables.stakes.any fun r => r.source = source && stakeActive block r

/-- The last active stake row of a source under a key. -/
def getActiveStakeBySourceAndPubkey (s : State) (source key block : ℕ) : Option Stake :=
  (s.tables.stakes.filter fun r => r.source = source && r.key = key && stakeActive block r).getLast?

/-- A delegation holds the key, active or still to come. -/
def getDelegationByPubkey (s : State) (key block : ℕ) : Bool :=
  s.tables.delegations.any fun d =>
    d.slot = .capability && d.key = key && d.deactivation.all (block < ·)

/-- The source delegates to the key at the block. -/
def getActiveDelegation (s : State) (source key block : ℕ) : Bool :=
  s.tables.delegations.any fun d => d.source = source && d.key = key && delegationActive block d

/-- A revocation that suppresses the stake row of the index. -/
def getStakeKeyRevocation (s : State) (source key since : ℕ) : Bool :=
  s.revocations.any fun v => v.source = source && v.key = key && since < v.index

/-- The source that last delegated to the key, as of a block. -/
def getStakeSourceForDelegatedPubkey (s : State) (key block : ℕ) : Option ℕ :=
  ((s.tables.delegations.filter fun d => d.key = key && delegationActive block d).getLast?).map
    Delegation.source

/-! ### STAKE -/

/-- The key is held by no stake and no delegation. -/
def validateFreeKey (R : Rules) (s : State) (key block : ℕ) : Bool :=
  (getActiveStakeByPubkey R s key
    (if R.keyReuse block then .reuseBlockingOnly block else .everHeld)).isNone &&
    !getDelegationByPubkey s key block

/-- SOURCE owns the active stake of the key. -/
def validateTopUpOwner (R : Rules) (s : State) (source key block : ℕ) : Bool :=
  (getActiveStakeByPubkey R s key (.active block)).any fun stake => stake.1 = source

/-- AMOUNT is positive, with at most 8 decimals. -/
def validAmount (amount : ℚ) : Bool := OnGrid 8 amount && 0 < amount

def createStake (R : Rules) (s : State) (index source key : ℕ) (amount : ℚ) (block : ℕ) : State :=
  { s with tables := { s.tables with stakes := s.tables.stakes ++
      [⟨index, source, key, .capability, amount, block + R.config.activationDelay, none, block⟩] } }

/-- STAKE v1 and v2. -/
def stake (R : Rules) (s : State) (index source key : ℕ) (amount : ℚ) (block : ℕ)
    (topUp allowed : Bool) : State :=
  if validAmount amount && allowed &&
      (if topUp then validateTopUpOwner R s source key block else validateFreeKey R s key block) then
    createStake R s index source key amount block
  else s

/-! ### DELEGATE -/

/-- DELEGATE v0. -/
def delegate (R : Rules) (s : State) (index source key block : ℕ) (allowed : Bool) : State :=
  if getActiveStakeBySource s source block &&
      (getActiveStakeByPubkey R s key .everHeld).isNone &&
      !getDelegationByPubkey s key block && allowed then
    { s with tables := { s.tables with delegations := s.tables.delegations ++
        [⟨index, source, key, .capability, block + R.config.activationDelay, none, block⟩] } }
  else s

/-- Below `DELEGATE_REVOKE_NO_REINSERT` a revoke writes a delegation of its own, with no activation. -/
def createRevokeDelegation (s : State) (index source key block : ℕ) : State :=
  { s with tables := { s.tables with delegations := s.tables.delegations ++
      [⟨index, source, key, .capability, 0, none, block⟩] } }

def setDelegationDeactivation (s : State) (source key deactivation : ℕ) : State :=
  { s with tables := { s.tables with delegations := s.tables.delegations.map fun d =>
      if d.slot = .capability ∧ d.source = source ∧ d.key = key ∧ d.deactivation = none then
        { d with deactivation := some deactivation }
      else d } }

/-- DELEGATE v2: the delegation of the key, or else the stake key itself. -/
def revoke (R : Rules) (s : State) (index source key block : ℕ) (allowed : Bool) : State :=
  let deactivation := block + R.config.activationDelay
  if !allowed then s
  else if getActiveDelegation s source key block then
    setDelegationDeactivation
      (if R.noReinsert block then s else createRevokeDelegation s index source key block)
      source key deactivation
  else
    match getActiveStakeBySourceAndPubkey s source key block with
    | none => s
    | some row =>
      if getStakeKeyRevocation s source key row.index then s
      else { s with revocations := s.revocations ++ [⟨index, source, key, deactivation, block⟩] }

/-! ### UNSTAKE -/

/-- The part of the stake to take out: `none` an error, `some none` all of it. -/
def readCapabilityPartialAmount (R : Rules) (amount : Option ℚ) (total : ℚ) (block : ℕ) :
    Option (Option ℚ) :=
  match amount with
  | none => some none
  | some x =>
    if !R.partialUnstake block then some none
    else if !validAmount x then none
    else if total < x then none
    else if x < total then some (some (Bcmath.format x 8))
    else some none

/-- The active rows of a key that are not deactivated yet. -/
def isSwept (key block : ℕ) (r : Stake) : Bool :=
  r.slot = .capability && r.key = key && (r.activation ≤ block && r.deactivation.isNone)

def setStakeDeactivationByPubkey (s : State) (key deactivation block : ℕ) : State :=
  { s with tables := { s.tables with
      stakes := s.tables.stakes.map fun r =>
        if isSwept key block r then { r with deactivation := some deactivation } else r } }

def createUnstake (R : Rules) (s : State) (index source key : ℕ) (amount : ℚ) (block : ℕ) : State :=
  { s with tables := { s.tables with unstakes := s.tables.unstakes ++
      [⟨index, source, key, .capability, amount, block + R.config.cooldownBlocks, .valid, block⟩] } }

/-- The rows are stamped, and what is left of a partial UNSTAKE is a row of its own. -/
def sweepCapabilityStake (R : Rules) (s : State) (index source key : ℕ) (total : ℚ)
    (requested : Option ℚ) (block : ℕ) : State :=
  let swept := setStakeDeactivationByPubkey s key (block + R.config.activationDelay) block
  match requested with
  | none => swept
  | some x =>
    createStake R swept index source key (Bcmath.format (Bcmath.bcsub total x 8) 8) block

/-- UNSTAKE v0. -/
def unstake (R : Rules) (s : State) (index source key : ℕ) (amount : Option ℚ) (block : ℕ)
    (allowed : Bool) : State :=
  match getActiveStakeByPubkey R s key (.undeactivatedOnly block) with
  | none => s
  | some (owner, total) =>
    if owner = source && allowed then
      match readCapabilityPartialAmount R amount total block with
      | none => s
      | some requested =>
        sweepCapabilityStake R (createUnstake R s index source key (requested.getD total) block)
          index source key total requested block
    else s

/-! ### SLASH -/

/-- The rows of the bond: those of the source that delegated to the offender, or the offender's own. -/
def isTarget (owner : Option ℕ) (offender source key : ℕ) : Bool :=
  match owner with
  | some ownerSource => source = ownerSource
  | none => key = offender

/-- A stake row that the slash burns. -/
def isBurnt (owner : Option ℕ) (offender block : ℕ) (burnPending : Bool) (r : Stake) : Bool :=
  r.slot = .capability && isTarget owner offender r.source r.key &&
    (burnPending || r.activation ≤ block) && 0 < castAmount r.amount && r.deactivation.isNone &&
    0 < r.amount

/-- A cooldown row that the slash burns. -/
def isBurntUnstake (owner : Option ℕ) (offender : ℕ) (u : Unstake) : Bool :=
  u.slot = .capability && isTarget owner offender u.source u.key &&
    (u.status = .valid || u.status = .pending) && 0 < castAmount u.amount && 0 < u.amount

/-- A stake row after the slash. -/
def burn (owner : Option ℕ) (offender block : ℕ) (burnPending : Bool) (r : Stake) : Stake :=
  if isBurnt owner offender block burnPending r then { r with amount := 0 } else r

/-- Burn the whole bond, row by row, the newest first. -/
def slashCapabilityStake (s : State) (offender block : ℕ) (burnPending : Bool)
    (owner : Option ℕ) : State :=
  { s with
    tables := { s.tables with
      stakes := s.tables.stakes.map (burn owner offender block burnPending)
      unstakes := s.tables.unstakes.map fun u =>
        if isBurntUnstake owner offender u then { u with amount := 0 } else u }
    slashDebits := s.slashDebits ++
      ((s.tables.stakes.filter (isBurnt owner offender block burnPending)).reverse.map fun r =>
        ⟨.stakes, r.index, r.amount, block⟩) ++
      ((s.tables.unstakes.filter (isBurntUnstake owner offender)).reverse.map fun u =>
        ⟨.unstakes, u.index, u.amount, block⟩) }

/-- An accepted SLASH. -/
def slash (R : Rules) (s : State) (offender resolveBlock block : ℕ) : State :=
  let burnt := slashCapabilityStake s offender block (R.burnsPending block)
    (getStakeSourceForDelegatedPubkey s offender resolveBlock)
  { burnt with slashEvents := burnt.slashEvents ++ [⟨offender, block⟩] }

/-! ### The end of a cooldown -/

def isMatured (block : ℕ) (u : Unstake) : Bool :=
  u.slot = .capability && u.cooldownEnd ≤ block && (u.status = .valid || u.status = .pending) &&
    0 < castAmount u.amount

def markCooldownsCompleted (s : State) (block : ℕ) : State :=
  { s with tables := { s.tables with
      unstakes := s.tables.unstakes.map fun u =>
        if isMatured block u then { u with status := .completed } else u } }

/-! ### Runs -/

/-- What happens to the capability stakes. -/
inductive Event
  | stake (source key : ℕ) (amount : ℚ) (topUp allowed : Bool)
  | delegate (source key : ℕ) (allowed : Bool)
  | revoke (source key : ℕ) (allowed : Bool)
  | unstake (source key : ℕ) (amount : Option ℚ) (allowed : Bool)
  | evict (sources : List ℕ)
  | slash (offender resolveBlock : ℕ)
  | mature
  | other

/-- The next action index is used up. -/
def takeIndex (s : State) : State :=
  { s with tables := { s.tables with nextIndex := s.tables.nextIndex + 1 } }

def apply (R : Rules) (s : State) (block : ℕ) : Event → State
  | .stake source key amount topUp allowed =>
    takeIndex (stake R s s.tables.nextIndex source key amount block topUp allowed)
  | .delegate source key allowed =>
    takeIndex (delegate R s s.tables.nextIndex source key block allowed)
  | .revoke source key allowed =>
    takeIndex (revoke R s s.tables.nextIndex source key block allowed)
  | .unstake source key amount allowed =>
    takeIndex (unstake R s s.tables.nextIndex source key amount block allowed)
  | .evict sources =>
    { s with tables := sources.foldl (Rollcalls.Close.evictSource R.config block) s.tables }
  | .slash offender resolveBlock => takeIndex (slash R s offender resolveBlock block)
  | .mature => markCooldownsCompleted s block
  | .other => takeIndex s

/-- An event with the block it is in; blocks come in order. -/
def step (R : Rules) (s : State) (e : ℕ × Event) : Option State :=
  if e.1 < s.block then none else some (apply R { s with block := e.1 } e.1 e.2)

def init : State := ⟨0, ⟨[], [], [], 0⟩, [], [], []⟩

end XChainIndexer.Staking.Capability
