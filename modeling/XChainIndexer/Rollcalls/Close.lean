import Mathlib.Data.Char
import XChainIndexer.Quorum.Stake
import XChainIndexer.Staking.Tables

/-! # The close of a roll-call epoch

`consensus/rollcall_close.js`, its two helpers `rollcall_close/epoch_inputs.js` and
`rollcall_close/absence_streak.js`, and the reads and writes of `db/rollcalls/index.js` and
`db/stakes/eviction_sweep.js` that they use.

An epoch closes once, at a fixed distance behind its block. The sources that were responsible at the
epoch's snapshot and the keys that signed decide whether the epoch rolled. A rolled epoch pins its
responsible sources and its absences; a source whose absences make a streak of `evictMisses` is evicted
there: its stake is swept into cooldown rows.

What a block's own actions did to the stakes before the close, the snapshot, the stored hashes and the
peer's answer are given with the block. A close that cannot be decided throws, and the block is tried
again with its writes undone. -/

namespace XChainIndexer.Rollcalls.Close

open IndexTables Quorum.Stake Staking.Tables

def evictMisses : ℕ := 2

def streakLookback : ℕ := 4

/-- The constants of the network, and what the close computes with from outside. -/
structure Config where
  isBtc : Bool
  activation : Option ℕ
  interval : ℕ
  acceptWindow : ℕ
  proofDelay : ℕ
  cooldownBlocks : ℕ
  activationDelay : ℕ
  gatesActive : ℕ → Bool
  buriedSnapshotBlock : ℕ → ℕ
  readings : Readings
  lower_lower : ∀ t, readings.toLowerCase (readings.toLowerCase t) = readings.toLowerCase t
  /-- The signed text of an epoch, its ledger hash and the gate list of a v1 epoch. -/
  buildRollcallCanonical : ℕ → Text → Option Text → Text
  verify : Text → Text → Text → Bool
  getAddressId : Text → ℕ
  addressId_injective : Function.Injective getAddressId

/-! ### The epochs -/

def isRollcallActive (cfg : Config) (epoch : ℕ) : Bool :=
  cfg.activation.any (· ≤ epoch)

def isRollcallEpoch (cfg : Config) (height : ℕ) : Bool :=
  0 < cfg.interval && height % cfg.interval = 0

/-- The epoch whose close block is `height`. -/
def rollcallEpochClosingAt (cfg : Config) (height : ℕ) : Option ℕ :=
  if height < cfg.acceptWindow + cfg.proofDelay then none
  else
    let epoch := height - cfg.acceptWindow - cfg.proofDelay
    if isRollcallEpoch cfg epoch && isRollcallActive cfg epoch then some epoch else none

/-! ### The tables -/

/-- A row of `rollcalls`; the pinned set is `none` where the column is `NULL`. -/
structure Rollcall where
  epoch : ℕ
  snapshotBlock : ℕ
  closeBlock : ℕ
  rolled : Bool
  responsibleSet : Option (List Text)

structure Absence where
  epoch : ℕ
  source : ℕ
  closeBlock : ℕ
  evicted : Bool

/-- The capability rows of the staking tables, and the next action index. -/
structure Tables where
  stakes : List Stake
  unstakes : List Unstake
  delegations : List Delegation
  nextIndex : ℕ
deriving DecidableEq

structure State where
  height : ℕ
  rollcalls : List Rollcall
  absences : List Absence
  tables : Tables

def insertRollcall (rows : List Rollcall) (row : Rollcall) : List Rollcall :=
  row :: rows.filter fun r => r.epoch ≠ row.epoch

def insertRollcallAbsences (rows : List Absence) (new : List Absence) : List Absence :=
  new ++ rows.filter fun r => !new.any fun n => n.epoch = r.epoch ∧ n.source = r.source

/-- The last `limit` rolled epochs up to `epoch`, newest first. -/
def getRolledRollcallEpochs (rows : List Rollcall) (epoch limit : ℕ) : List Rollcall :=
  ((rows.filter fun r => r.rolled && r.epoch ≤ epoch).insertionSort
    fun r r' => r'.epoch ≤ r.epoch).take limit

def getRollcallAbsenceEpochsForSource (rows : List Absence) (source : ℕ) (epochs : List ℕ) : List ℕ :=
  (rows.filter fun r => r.source = source ∧ r.epoch ∈ epochs).map Absence.epoch

/-! ### The inputs of a close -/

/-- A row of `getStakeWeightsByCapability`. -/
structure Weight where
  pubkey : Text
  source : Text
  weight : Text

/-- The responsible set, and whether the query's cap cut it off. -/
structure Responsible where
  rows : List Weight
  truncated : Bool

def Responsible.snapshot (responsible : Responsible) : Snapshot :=
  ⟨responsible.truncated, responsible.rows.map fun v => some ⟨v.pubkey, some v.source, some v.weight⟩⟩

/-- A signer's row of the peer's answer. -/
structure SignerRow where
  sig : Text
  ledgerHash : Text
  gates : Option Text

/-- A block that the close comes to: the tables as its actions left them, and what the close reads. -/
structure Block where
  tables : Tables
  responsible : Responsible
  /-- Whether the block at the end of the window has a stored time. -/
  windowStored : Bool
  ledgerHash : Option Text
  /-- The rows of the peer's answer, `none` if the epoch is undecidable. -/
  answer : Option (List (Text × SignerRow))
  rewardRefused : Bool

def keysOf (cfg : Config) (rows : List Weight) : List Text :=
  rows.map fun v => cfg.readings.toLowerCase v.pubkey

/-- The source that each key speaks for: the last row of a key counts. -/
def sourceOf (cfg : Config) (rows : List Weight) : List (Text × Text) :=
  (rows.map fun v => (cfg.readings.toLowerCase v.pubkey, v.source)).reverse

def allSources (rows : List Weight) : List Text := (rows.map Weight.source).dedup

def sortedSources (rows : List Weight) : List Text := (allSources rows).insertionSort (· ≤ ·)

/-- An empty gate list reads as absent. -/
def readGates (row : SignerRow) : Option Text := row.gates.filter (· ≠ [])

/-- Whether the answer's row of a key counts. -/
def signs (cfg : Config) (answer : List (Text × SignerRow)) (ledgerHash : Text) (epoch : ℕ)
    (key : Text) : Bool :=
  (answer.lookup key).any fun row =>
    row.sig ≠ [] && cfg.readings.toLowerCase row.ledgerHash = ledgerHash &&
      cfg.gatesActive epoch = (readGates row).isSome &&
      cfg.verify (cfg.buildRollcallCanonical epoch ledgerHash (readGates row))
        (cfg.readings.toLowerCase row.sig) key

/-- `verifySigners`: the keys that are present. -/
def presentKeys (cfg : Config) (rows : List Weight) (answer : List (Text × SignerRow))
    (ledgerHash : Text) (epoch : ℕ) : List Text :=
  (keysOf cfg rows).filter (signs cfg answer ledgerHash epoch)

def presentSources (cfg : Config) (rows : List Weight) (keys : List Text) : List Text :=
  keys.filterMap fun key => (sourceOf cfg rows).lookup key

/-! ### The streak -/

/-- The streak of an absent source over the rolled epochs, newest first, from `streak` on. -/
def sourceStreak (source : Text) (priorAbsences : List ℕ) (epoch : ℕ) : List Rollcall → ℕ → ℕ
  | [], streak => streak
  | row :: lookback, streak =>
    if row.epoch = epoch then
      if evictMisses ≤ streak + 1 then streak + 1
      else sourceStreak source priorAbsences epoch lookback (streak + 1)
    else
      match row.responsibleSet with
      | none => streak
      | some pinned =>
        if source ∉ pinned then sourceStreak source priorAbsences epoch lookback streak
        else if row.epoch ∉ priorAbsences then streak
        else if evictMisses ≤ streak + 1 then streak + 1
        else sourceStreak source priorAbsences epoch lookback (streak + 1)

/-- Whether an absent source is evicted at the close of `epoch`. -/
def isEvicted (cfg : Config) (rollcalls : List Rollcall) (absences : List Absence) (epoch : ℕ)
    (source : Text) : Bool :=
  let lookback := getRolledRollcallEpochs rollcalls epoch streakLookback
  let priorAbsences := getRollcallAbsenceEpochsForSource absences (cfg.getAddressId source)
    (lookback.map Rollcall.epoch)
  evictMisses ≤ sourceStreak source priorAbsences epoch lookback 0

/-! ### The eviction -/

/-- The stake rows that the sweep of a source takes in. -/
def isSweepable (source block : ℕ) (includePending : Bool) (r : Stake) : Bool :=
  r.slot = .capability && r.source = source && r.deactivation.isNone &&
    (includePending || r.activation ≤ block)

def keyAmount (rows : List Stake) (key : ℕ) : ℚ :=
  ((rows.filter fun r => r.key = key).map fun r => castAmount r.amount).sum

/-- The amount of each signing key, in the order of the keys. -/
def getSweepableStakeBySource (t : Tables) (source block : ℕ) (includePending : Bool) :
    List (ℕ × ℚ) :=
  let rows := t.stakes.filter (isSweepable source block includePending)
  ((rows.map Stake.key).dedup.insertionSort (· ≤ ·)).map fun key => (key, keyAmount rows key)

def setStakeDeactivationBySourceAndPubkey (t : Tables) (source key deactivation block : ℕ)
    (includePending : Bool) : Tables :=
  { t with stakes := t.stakes.map fun r =>
      if isSweepable source block includePending r && r.key = key then
        { r with deactivation := some deactivation }
      else r }

def setAllDelegationDeactivationsBySource (t : Tables) (source deactivation : ℕ) : Tables :=
  { t with delegations := t.delegations.map fun d =>
      if d.slot = .capability ∧ d.source = source ∧ d.deactivation = none then
        { d with deactivation := some deactivation }
      else d }

/-- Sweep one key of a source into a cooldown row. -/
def evictKey (cfg : Config) (source closeBlock : ℕ) (t : Tables) (group : ℕ × ℚ) : Tables :=
  let amount := Bcmath.format group.2 8
  if 0 < amount then
    let row : Unstake := ⟨t.nextIndex, source, group.1, .capability, amount,
      closeBlock + cfg.cooldownBlocks, .valid, closeBlock⟩
    setStakeDeactivationBySourceAndPubkey
      { t with unstakes := t.unstakes ++ [row], nextIndex := t.nextIndex + 1 }
      source group.1 (closeBlock + cfg.activationDelay) closeBlock true
  else t

def evictSource (cfg : Config) (closeBlock : ℕ) (t : Tables) (source : ℕ) : Tables :=
  let rows := getSweepableStakeBySource t source closeBlock true
  if rows = [] then t
  else setAllDelegationDeactivationsBySource (rows.foldl (evictKey cfg source closeBlock) t) source
    (closeBlock + cfg.activationDelay)

/-! ### The close -/

/-- A close: the state it leaves, and the sources it found absent and evicted. -/
structure Closed where
  state : State
  absentSources : List Text
  evictedSources : List Text

def closeRolled (cfg : Config) (s : State) (b : Block) (epoch closeBlock : ℕ)
    (present : List Text) : Closed :=
  let sorted := sortedSources b.responsible.rows
  let rollcalls := insertRollcall s.rollcalls
    ⟨epoch, cfg.buriedSnapshotBlock epoch, closeBlock, true, some sorted⟩
  let absentSources := sorted.filter (· ∉ present)
  let evicted := isEvicted cfg rollcalls s.absences epoch
  let evictedSources := absentSources.filter evicted
  let absences := insertRollcallAbsences s.absences
    (absentSources.map fun source => ⟨epoch, cfg.getAddressId source, closeBlock, evicted source⟩)
  let tables := (evictedSources.map cfg.getAddressId).foldl (evictSource cfg closeBlock) b.tables
  ⟨⟨closeBlock, rollcalls, absences, tables⟩, absentSources, evictedSources⟩

def closeUnrolled (cfg : Config) (s : State) (b : Block) (epoch closeBlock : ℕ) : Closed :=
  ⟨⟨closeBlock, insertRollcall s.rollcalls
      ⟨epoch, cfg.buriedSnapshotBlock epoch, closeBlock, false, none⟩, s.absences, b.tables⟩, [], []⟩

/-- The close of `epoch`, `none` where it throws. -/
def closeEpoch (cfg : Config) (s : State) (b : Block) (epoch closeBlock : ℕ) : Option Closed :=
  if b.responsible.truncated || b.responsible.rows = [] then
    some (closeUnrolled cfg s b epoch closeBlock)
  else if !b.windowStored then none
  else do
    let ledgerHash ← b.ledgerHash.filter (· ≠ [])
    let answer ← b.answer
    let keys := presentKeys cfg b.responsible.rows answer (cfg.readings.toLowerCase ledgerHash) epoch
    if meetsStakeThreshold cfg.readings b.responsible.snapshot keys then
      if b.rewardRefused then none
      else return closeRolled cfg s b epoch closeBlock (presentSources cfg b.responsible.rows keys)
    else return closeUnrolled cfg s b epoch closeBlock

/-- `closeRollcallEpochs` at the next block, once the block's actions are carried out. -/
def closeRollcallEpochs (cfg : Config) (s : State) (b : Block) : Option Closed :=
  let closeBlock := s.height + 1
  let idle : Closed := ⟨⟨closeBlock, s.rollcalls, s.absences, b.tables⟩, [], []⟩
  if !cfg.isBtc then some idle
  else
    match rollcallEpochClosingAt cfg closeBlock with
    | none => some idle
    | some epoch => closeEpoch cfg s b epoch closeBlock

/-- The state after a block; a block whose close throws is not applied. -/
def step (cfg : Config) (s : State) (b : Block) : Option State :=
  (closeRollcallEpochs cfg s b).map Closed.state

def init : State := ⟨0, [], [], ⟨[], [], [], 0⟩⟩

end XChainIndexer.Rollcalls.Close
