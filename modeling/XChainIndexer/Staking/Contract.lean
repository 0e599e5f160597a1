import XChainIndexer.Staking.Reads

/-! # The contract stakes

The actions on stakes for a contract: STAKE v3 (`actions/stake/contract_stake.js`), UNSTAKE v1
(`actions/unstake/`), DELEGATE v1 and v3 (`actions/delegate/`), the slash that a contract emits
(`db/contracts/slash.js`) and the pass that writes delegated keys onto the rows
(`db/contracts/delegation_rotation.js`).

A stake is in the slot of its target contract and tick. An amount has the decimals of the tick. A slash
and a rotation write to rows that are there and keep what they wrote over in a journal. Whether the
contract takes stakes, SOURCE has the balance and is not asleep is an answer, `allowed`. The rows of a
table and of a journal are in the order they were written. -/

namespace XChainIndexer.Staking.Contract

open Lib.Decimal Bcmath Staking.Tables
open Staking.Reads (isActiveAt DebitTable)

/-- A row of `contract_delegation_rotations`. -/
structure Rotation where
  table : DebitTable
  delegationIndex : ℕ
  stakeIndex : ℕ
  prevKey : ℕ
  newKey : ℕ
  block : ℕ
deriving DecidableEq

/-- A row of `contract_slash_debits`. -/
structure Debit where
  table : DebitTable
  stakeIndex : ℕ
  prevAmount : ℚ
  amount : ℚ
  block : ℕ
deriving DecidableEq

structure State where
  block : ℕ
  tables : Rollcalls.Close.Tables
  rotations : List Rotation
  debits : List Debit
deriving DecidableEq

/-- The rules of the network at each block, and what the contracts and tokens say. -/
structure Rules where
  activationDelay : ℕ
  /-- The cooldown of a contract. -/
  cooldownBlocks : ℕ → ℕ
  /-- `getTokenDecimalPrecision`. -/
  decimals : ℕ → ℕ
  decimals_le : ∀ tick, decimals tick ≤ 18
  partialUnstake : ℕ → Bool
  /-- `STAKE_DELEGATED_SIGNING_KEY`. -/
  delegatedKey : ℕ → Bool
  materialize : ℕ → Bool
  rotateInWindow : ℕ → Bool
  /-- `UNSTAKE_DELEGATED_ROW_JOURNAL_ACTIVATION`. -/
  rowJournal : ℕ → Bool
  slashGrid : ℕ → Bool
  /-- `CONTRACT_SLASH_ACTIVE_FIRST_ACTIVATION`. -/
  activeFirst : ℕ → Bool

def slotDecimals (R : Rules) : Slot → ℕ
  | .capability => 8
  | .contract _ tick => R.decimals tick

def slotCooldown (R : Rules) : Slot → ℕ
  | .capability => 0
  | .contract target _ => R.cooldownBlocks target

def isContract : Slot → Bool
  | .capability => false
  | .contract _ _ => true

/-! ### STAKE v3 -/

/-- The source of the first row of a key in a slot. -/
def getContractStakeOwner (s : State) (slot : Slot) (key : ℕ) : Option ℕ :=
  (s.tables.stakes.find? fun r => r.slot = slot && r.key = key).map Stake.source

/-- A delegation in any slot holds the key, or ever held it if there is no block. -/
def isSigningPubkeyUsedByContractDelegation (s : State) (key : ℕ) (block : Option ℕ) : Bool :=
  s.tables.delegations.any fun d => isContract d.slot && d.key = key &&
    block.all fun b => d.deactivation.all (b < ·)

/-- A stake row in any slot has the key. -/
def isSigningPubkeyUsedByContractStake (s : State) (key : ℕ) : Bool :=
  s.tables.stakes.any fun r => isContract r.slot && r.key = key

def validateStakeOwner (R : Rules) (s : State) (slot : Slot) (source key block : ℕ) : Bool :=
  ((getContractStakeOwner s slot key).all (· = source)) &&
    !(R.delegatedKey block && isSigningPubkeyUsedByContractDelegation s key (some block))

/-- AMOUNT is positive, with no more decimals than the token. -/
def validAmount (R : Rules) (slot : Slot) (amount : ℚ) : Bool :=
  OnGrid (slotDecimals R slot) amount && 0 < amount

def createContractStake (R : Rules) (s : State) (index source : ℕ) (slot : Slot) (key : ℕ)
    (amount : ℚ) (block : ℕ) : State :=
  { s with tables := { s.tables with stakes := s.tables.stakes ++
      [⟨index, source, key, slot, amount, block + R.activationDelay, none, block⟩] } }

/-- STAKE v3, a new stake or a top-up. -/
def stake (R : Rules) (s : State) (index source : ℕ) (slot : Slot) (key : ℕ) (amount : ℚ)
    (block : ℕ) (allowed : Bool) : State :=
  if isContract slot && validAmount R slot amount && allowed &&
      validateStakeOwner R s slot source key block then
    createContractStake R s index source slot key amount block
  else s

/-! ### UNSTAKE v1 -/

/-- The active rows of a key in a slot that are not deactivated yet. -/
def isSwept (slot : Slot) (key block : ℕ) (r : Stake) : Bool :=
  r.slot = slot && r.key = key && (r.activation ≤ block && r.deactivation.isNone)

/-- The least source of the rows that an UNSTAKE takes and what they hold. -/
def getActiveContractStakeByPubkey (R : Rules) (s : State) (slot : Slot) (key block : ℕ) :
    Option (ℕ × ℚ) :=
  let rows := s.tables.stakes.filter (isSwept slot key block)
  let decimals := slotDecimals R slot
  (rows.map Stake.source).min?.map fun source =>
    (source, format ((rows.map Stake.amount).foldl (fun a b => bcadd a b decimals) 0) decimals)

/-- The part of the stake to take out: `none` an error, `some none` all of it. -/
def readContractPartialAmount (R : Rules) (slot : Slot) (amount : Option ℚ) (total : ℚ)
    (block : ℕ) : Option (Option ℚ) :=
  match amount with
  | none => some none
  | some x =>
    if !R.partialUnstake block then some none
    else if !validAmount R slot x then none
    else if total < x then none
    else if x < total then some (some (format x (slotDecimals R slot)))
    else some none

def setContractStakeDeactivationByPubkey (s : State) (slot : Slot) (key deactivation block : ℕ) :
    State :=
  { s with tables := { s.tables with
      stakes := s.tables.stakes.map fun r =>
        if isSwept slot key block r then { r with deactivation := some deactivation } else r } }

def createContractUnstake (R : Rules) (s : State) (index source : ℕ) (slot : Slot) (key : ℕ)
    (amount : ℚ) (block : ℕ) : State :=
  { s with tables := { s.tables with unstakes := s.tables.unstakes ++
      [⟨index, source, key, slot, amount, block + slotCooldown R slot, .valid, block⟩] } }

/-- The rows are stamped, and what is left of a partial UNSTAKE is a row of its own. -/
def sweepContractStake (R : Rules) (s : State) (index source : ℕ) (slot : Slot) (key : ℕ) (total : ℚ)
    (requested : Option ℚ) (block : ℕ) : State :=
  let swept := setContractStakeDeactivationByPubkey s slot key (block + R.activationDelay) block
  let decimals := slotDecimals R slot
  match requested with
  | none => swept
  | some x =>
    createContractStake R swept index source slot key (format (bcsub total x decimals) decimals) block

/-- The first key of the rows of a slot that have a key now, and the delegation that last gave it. -/
def getContractStakeRotationOrigin (s : State) (slot : Slot) (source key : ℕ) : Option (ℕ × Option ℕ) :=
  let rows := (s.rotations.filter fun r => r.table = .stakes &&
    s.tables.stakes.any fun t => t.index = r.stakeIndex && t.slot = slot && t.source = source &&
      t.key = key).insertionSort fun r r' => toLex (r.block, toLex (r.delegationIndex, r.stakeIndex)) ≤
        toLex (r'.block, toLex (r'.delegationIndex, r'.stakeIndex))
  rows.head?.map fun first =>
    (first.prevKey, ((rows.filter fun r => r.newKey = key).getLast?).map Rotation.delegationIndex)

/-- The rows that an UNSTAKE under a delegated key writes are journaled as rotated. -/
def journalRotatedContractRows (R : Rules) (s : State) (index source : ℕ) (slot : Slot)
    (key : ℕ) (hasResidual : Bool) (block : ℕ) : State :=
  if !R.rowJournal block then s
  else
    match getContractStakeRotationOrigin s slot source key with
    | some (original, some delegation) =>
      if original = key then s
      else { s with rotations := s.rotations ++
        ⟨.unstakes, delegation, index, original, key, block⟩ ::
          (if hasResidual then [⟨.stakes, delegation, index, original, key, block⟩] else []) }
    | _ => s

/-- UNSTAKE v1. -/
def unstake (R : Rules) (s : State) (index source : ℕ) (slot : Slot) (key : ℕ) (amount : Option ℚ)
    (block : ℕ) (allowed : Bool) : State :=
  match getActiveContractStakeByPubkey R s slot key block with
  | none => s
  | some (owner, total) =>
    if isContract slot && owner = source && allowed then
      match readContractPartialAmount R slot amount total block with
      | none => s
      | some requested =>
        journalRotatedContractRows R
          (sweepContractStake R
            (createContractUnstake R s index source slot key (requested.getD total) block)
            index source slot key total requested block)
          index owner slot key requested.isSome block
    else s

/-! ### DELEGATE v1 and v3 -/

/-- SOURCE has a stake in the slot that is not being taken out. -/
def hasActiveContractStakeForDelegation (s : State) (slot : Slot) (source block : ℕ) : Bool :=
  s.tables.stakes.any fun r => r.slot = slot && r.source = source && r.activation ≤ block &&
    r.deactivation.isNone

def delegate (R : Rules) (s : State) (index source : ℕ) (slot : Slot) (key block : ℕ)
    (allowed : Bool) : State :=
  if isContract slot && hasActiveContractStakeForDelegation s slot source block &&
      !isSigningPubkeyUsedByContractStake s key &&
      !isSigningPubkeyUsedByContractDelegation s key none && allowed then
    { s with tables := { s.tables with delegations := s.tables.delegations ++
        [⟨index, source, key, slot, block + R.activationDelay, none, block⟩] } }
  else s

/-- SOURCE's delegation of the key is active. -/
def hasActiveContractDelegation (s : State) (slot : Slot) (source key block : ℕ) : Bool :=
  s.tables.delegations.any fun d => d.slot = slot && d.source = source && d.key = key &&
    isActiveAt block d.activation d.deactivation

/-- The open delegations of the key in the slot get the end, of whichever source. -/
def deactivateContractDelegation (s : State) (slot : Slot) (key deactivation : ℕ) : State :=
  { s with tables := { s.tables with delegations := s.tables.delegations.map fun d =>
      if d.slot = slot ∧ d.key = key ∧ d.deactivation = none then
        { d with deactivation := some deactivation }
      else d } }

def revoke (R : Rules) (s : State) (source : ℕ) (slot : Slot) (key block : ℕ) (allowed : Bool) :
    State :=
  if isContract slot && hasActiveContractDelegation s slot source key block && allowed then
    deactivateContractDelegation s slot key (block + R.activationDelay)
  else s

/-! ### Delegated keys on the rows -/

/-- A delegation in force at the block. -/
def isInForce (block : ℕ) (d : Delegation) : Bool :=
  isContract d.slot && isActiveAt block d.activation d.deactivation

/-- `d2` comes after `d` for the same slot and source. -/
def supersedes (d2 d : Delegation) : Bool :=
  d2.slot = d.slot && d2.source = d.source &&
    (d.activation < d2.activation || d2.activation = d.activation && d.index < d2.index)

/-- The delegations that govern their slot: the last in force for its source. -/
def governing (s : State) (block : ℕ) : List Delegation :=
  (s.tables.delegations.filter fun d => isInForce block d &&
    !(s.tables.delegations.any fun d2 => isInForce block d2 && supersedes d2 d)).insertionSort
      fun d d' => toLex (d.activation, d.index) ≤ toLex (d'.activation, d'.index)

/-- A stake or a delegation of another slot or source has the key. Under the gate (`merged`) a row that
is deactivated does not count, below it the delegations of the slot itself do. -/
def contractPubkeyClaimedElsewhere (s : State) (key : ℕ) (slot : Slot) (source block : ℕ)
    (merged : Bool) : Bool :=
  if merged then
    (s.tables.stakes.any fun r => isContract r.slot && r.key = key && r.deactivation.isNone &&
      !(r.slot = slot && r.source = source)) ||
    s.tables.delegations.any fun d => isContract d.slot && d.key = key &&
      d.deactivation.all (block < ·) && !(d.slot = slot && d.source = source)
  else
    (s.tables.stakes.any fun r => isContract r.slot && r.key = key &&
      !(r.slot = slot && r.source = source)) ||
    s.tables.delegations.any fun d => isContract d.slot && d.key = key && d.deactivation.isNone

/-- A stake row that the pass may write to. -/
def isRotatable (R : Rules) (block : ℕ) (r : Stake) : Bool :=
  if R.rotateInWindow block then r.deactivation.all (block < ·) else r.deactivation.isNone

/-- A cooldown row that can still be slashed. -/
def isCooling (u : Unstake) : Bool := u.status = .valid || u.status = .pending

/-- Write a key onto a stake row. -/
def rotateStakeKey (s : State) (delegationIndex : ℕ) (row : Stake) (key block : ℕ) : State :=
  { s with
    tables := { s.tables with stakes := s.tables.stakes.map fun r =>
      if r.index = row.index ∧ r.slot = row.slot then { r with key := key } else r }
    rotations := s.rotations ++ [⟨.stakes, delegationIndex, row.index, row.key, key, block⟩] }

/-- Write a key onto a cooldown row. -/
def rotateUnstakeKey (s : State) (delegationIndex : ℕ) (row : Unstake) (key block : ℕ) : State :=
  { s with
    tables := { s.tables with unstakes := s.tables.unstakes.map fun u =>
      if u.index = row.index ∧ u.slot = row.slot then { u with key := key } else u }
    rotations := s.rotations ++ [⟨.unstakes, delegationIndex, row.index, row.key, key, block⟩] }

/-- One governing delegation: its key onto the rows of its slot and source. -/
def rotateSlot (R : Rules) (block : ℕ) (s : State) (d : Delegation) : State :=
  if R.delegatedKey block && contractPubkeyClaimedElsewhere s d.key d.slot d.source block true then s
  else
    let stakeRows := s.tables.stakes.filter fun r =>
      r.slot = d.slot && r.source = d.source && isRotatable R block r && r.key ≠ d.key
    let s1 := stakeRows.foldl (fun s row => rotateStakeKey s d.index row d.key block) s
    let unstakeRows := s1.tables.unstakes.filter fun u =>
      u.slot = d.slot && u.source = d.source && isCooling u && u.key ≠ d.key
    unstakeRows.foldl (fun s row => rotateUnstakeKey s d.index row d.key block) s1

/-- The first journal row of a row. -/
def firstRotation (s : State) (table : DebitTable) (index : ℕ) : Option Rotation :=
  s.rotations.find? fun r => r.table = table && r.stakeIndex = index

/-- The key that a rotated row goes back to, if it does not have it. -/
def revertKey (s : State) (table : DebitTable) (index key : ℕ) : Option Rotation :=
  (firstRotation s table index).filter fun r => r.prevKey ≠ key

/-- A slot with a governing delegation. -/
def isGoverned (gov : List Delegation) (slot : Slot) (source : ℕ) : Bool :=
  gov.any fun d => d.slot = slot && d.source = source

/-- Give a stake row that no delegation governs its first key back. -/
def revertStake (R : Rules) (gov : List Delegation) (block : ℕ) (s : State)
    (p : Stake × Rotation) : State :=
  if isGoverned gov p.1.slot p.1.source then s
  else if contractPubkeyClaimedElsewhere s p.2.prevKey p.1.slot p.1.source block
      (R.delegatedKey block) then s
  else rotateStakeKey s p.2.delegationIndex p.1 p.2.prevKey block

/-- Give a cooldown row that no delegation governs its first key back. -/
def revertUnstake (R : Rules) (gov : List Delegation) (block : ℕ) (s : State)
    (p : Unstake × Rotation) : State :=
  if isGoverned gov p.1.slot p.1.source then s
  else if contractPubkeyClaimedElsewhere s p.2.prevKey p.1.slot p.1.source block
      (R.delegatedKey block) then s
  else rotateUnstakeKey s p.2.delegationIndex p.1 p.2.prevKey block

/-- The rotated rows are read once for each table, the claims as they are when a row is written. -/
def revertUngoverned (R : Rules) (gov : List Delegation) (block : ℕ) (s : State) : State :=
  let stakeRows := (s.tables.stakes.filter fun r => isContract r.slot && isRotatable R block r).filterMap
    fun r => (revertKey s .stakes r.index r.key).map fun first => (r, first)
  let s1 := stakeRows.foldl (revertStake R gov block) s
  let unstakeRows := (s1.tables.unstakes.filter fun u => isContract u.slot && isCooling u).filterMap
    fun u => (revertKey s1 .unstakes u.index u.key).map fun first => (u, first)
  unstakeRows.foldl (revertUnstake R gov block) s1

def materializeContractDelegations (R : Rules) (s : State) (block : ℕ) : State :=
  let gov := governing s block
  revertUngoverned R gov block (gov.foldl (rotateSlot R block) s)

/-- The pass at the top of a block. -/
def processContractDelegationMaterializations (R : Rules) (s : State) (block : ℕ) : State :=
  if R.materialize block then materializeContractDelegations R s block else s

/-! ### The slash of a contract -/

def slashDeductionPrecision : ℕ := 18

/-- A row that a slash takes from: what is read of it. -/
structure Due where
  index : ℕ
  source : ℕ
  amount : ℚ

/-- What a slash took from a row and left on it. -/
structure Take where
  index : ℕ
  source : ℕ
  prevAmount : ℚ
  amount : ℚ
  left : ℚ

def isDueStake (slot : Slot) (key : ℕ) (r : Stake) : Bool :=
  r.slot = slot && r.key = key && 0 < toFixed 18 r.amount && r.deactivation.isNone

def isDueUnstake (slot : Slot) (key : ℕ) (u : Unstake) : Bool :=
  u.slot = slot && u.key = key && isCooling u && 0 < toFixed 18 u.amount

/-- The rows not being taken out, newest first; under the gate the active ones before the others. -/
def activeStakeRows (R : Rules) (s : State) (slot : Slot) (key block : ℕ) : List Stake :=
  let rows := (s.tables.stakes.filter (isDueStake slot key)).reverse
  if R.activeFirst block then
    rows.filter (fun r => r.activation ≤ block) ++ rows.filter fun r => block < r.activation
  else rows

/-- The cooldown rows, newest first. -/
def cooldownRows (s : State) (slot : Slot) (key : ℕ) : List Unstake :=
  (s.tables.unstakes.filter (isDueUnstake slot key)).reverse

/-- The loop over the rows of one table, with what remains to take. Under the grid rule the take is
read back from what was written. -/
def deduct (gridOn : Bool) (decimals : ℕ) : List Due → ℚ → List Take × ℚ
  | [], remaining => ([], remaining)
  | row :: rows, remaining =>
    if 0 < remaining then
      let asked := if remaining ≤ row.amount then remaining else row.amount
      let left := bcsub row.amount asked decimals
      let take := if gridOn then bcsub row.amount left decimals else asked
      let rest := deduct gridOn decimals rows (bcsub remaining take decimals)
      (⟨row.index, row.source, row.amount, take, left⟩ :: rest.1, rest.2)
    else ([], remaining)

/-- The releases, by source in the order of their first row. -/
def addRelease (decimals : ℕ) : List (ℕ × ℚ) → Take → List (ℕ × ℚ)
  | [], t => [(t.source, bcadd 0 t.amount decimals)]
  | (source, cur) :: rest, t =>
    if source = t.source then (source, bcadd cur t.amount decimals) :: rest
    else (source, cur) :: addRelease decimals rest t

/-- What a slash takes from the tables, and what it reports. -/
structure Deduction where
  stakes : List Take
  unstakes : List Take
  total : ℚ
  releases : List (ℕ × ℚ)

/-- The two passes: `decimals` are those of the tick. -/
def deductRows (gridOn : Bool) (decimals : ℕ) (stakes unstakes : List Due) (amount : ℚ) : Deduction :=
  let deductDec := if gridOn then slashDeductionPrecision else decimals
  let remaining := if gridOn then bcmulfloor amount 1 decimals else amount
  if gridOn && !(decide (0 < remaining)) then ⟨[], [], 0, []⟩
  else
    let active := deduct gridOn deductDec stakes remaining
    let cooldown := deduct gridOn deductDec unstakes active.2
    let takes := active.1 ++ cooldown.1
    ⟨active.1, cooldown.1, takes.foldl (fun total t => bcadd total t.amount deductDec) 0,
      takes.foldl (addRelease deductDec) []⟩

def stakeDue (r : Stake) : Due := ⟨r.index, r.source, r.amount⟩

def unstakeDue (u : Unstake) : Due := ⟨u.index, u.source, u.amount⟩

def deduction (R : Rules) (s : State) (slot : Slot) (key : ℕ) (amount : ℚ) (block : ℕ) :
    Deduction :=
  deductRows (R.slashGrid block) (slotDecimals R slot)
    ((activeStakeRows R s slot key block).map stakeDue) ((cooldownRows s slot key).map unstakeDue) amount

/-- The amount of a row after the takes. -/
def leftOf (takes : List Take) (index : ℕ) (amount : ℚ) : ℚ :=
  ((takes.find? fun t => t.index = index).map Take.left).getD amount

/-- A slash that a contract emits. -/
def slashContractStake (R : Rules) (s : State) (slot : Slot) (key : ℕ) (amount : ℚ) (block : ℕ) :
    State :=
  let d := deduction R s slot key amount block
  { s with
    tables := { s.tables with
      stakes := s.tables.stakes.map fun r => { r with amount := leftOf d.stakes r.index r.amount }
      unstakes := s.tables.unstakes.map fun u =>
        { u with amount := leftOf d.unstakes u.index u.amount } }
    debits := s.debits ++ d.stakes.map (fun t => ⟨.stakes, t.index, t.prevAmount, t.amount, block⟩) ++
      d.unstakes.map fun t => ⟨.unstakes, t.index, t.prevAmount, t.amount, block⟩ }

/-! ### The blocks -/

/-- A cooldown row whose refund is due. -/
def isMatured (block : ℕ) (u : Unstake) : Bool :=
  isContract u.slot && isCooling u && u.cooldownEnd ≤ block && 0 < toFixed 18 u.amount

/-- The sweep at the end of a block. -/
def markContractCooldownsCompleted (s : State) (block : ℕ) : State :=
  { s with tables := { s.tables with
      unstakes := s.tables.unstakes.map fun u =>
        if isMatured block u then { u with status := .completed } else u } }

inductive Event where
  /-- The next block begins. -/
  | begin
  | stake (source : ℕ) (slot : Slot) (key : ℕ) (amount : ℚ) (allowed : Bool)
  | unstake (source : ℕ) (slot : Slot) (key : ℕ) (amount : Option ℚ) (allowed : Bool)
  | delegate (source : ℕ) (slot : Slot) (key : ℕ) (allowed : Bool)
  | revoke (source : ℕ) (slot : Slot) (key : ℕ) (allowed : Bool)
  | slash (slot : Slot) (key : ℕ) (amount : ℚ)
  /-- The sweep at the end of the block. -/
  | mature
  /-- Another action. -/
  | other

/-- Actions are numbered in the order they run. -/
def takeIndex (s : State) : State :=
  { s with tables := { s.tables with nextIndex := s.tables.nextIndex + 1 } }

def apply (R : Rules) (s : State) : Event → State
  | .begin => processContractDelegationMaterializations R { s with block := s.block + 1 } (s.block + 1)
  | .stake source slot key amount allowed =>
    stake R (takeIndex s) s.tables.nextIndex source slot key amount s.block allowed
  | .unstake source slot key amount allowed =>
    unstake R (takeIndex s) s.tables.nextIndex source slot key amount s.block allowed
  | .delegate source slot key allowed =>
    delegate R (takeIndex s) s.tables.nextIndex source slot key s.block allowed
  | .revoke source slot key allowed => revoke R (takeIndex s) source slot key s.block allowed
  | .slash slot key amount => slashContractStake R (takeIndex s) slot key amount s.block
  | .mature => markContractCooldownsCompleted s s.block
  | .other => takeIndex s

def step (R : Rules) (s : State) (e : Event) : Option State := some (apply R s e)

def init : State := ⟨0, ⟨[], [], [], 0⟩, [], []⟩

end XChainIndexer.Staking.Contract
