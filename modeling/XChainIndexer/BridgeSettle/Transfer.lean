import XChainIndexer.Tokens.Numerals

/-! # Settling bridge transfers

The end-of-block pass over the mirrored `bridge_transfers` (`consensus/bridge_settle/pass.js`,
`transfer.js`, `leg_effects.js`, `db/bridge_settlements/index.js`). A finalized transfer to this chain is
either an in leg, which mints, or an out leg, which releases the escrow its lock put here; what was paid
out is recorded in this chain's own `bridge_settlements`.

The mirror is any list of rows. What the pass cannot answer from the row and the ledger (the quorum, the
escrow proof, the inherited policy, the verdict of an injected ISSUE) is an answer of the environment. -/

namespace XChainIndexer.BridgeSettle.Transfer

open Bcmath IndexTables Tokens.Numerals

/-! ### Rows -/

/-- A row of `bridge_transfers`; an absent text is empty. -/
structure Row where
  transferId : Text
  srcChain : Text
  /-- `BIGINT UNSIGNED`. -/
  srcActionIndex : Option ℕ
  destChain : Text
  destAddress : Text
  tick : Text
  decimals : Option ℕ
  amount : Text
  snapshotBlock : Option ℕ
  effectiveTime : ℕ
  network : Text
  btcChainId : Option Text
  finalized : Bool

/-- The largest integer the doubles below which are all exact. -/
def maxSafeInteger : ℕ := 2 ^ 53 - 1

/-- The nearest double, ties to even. -/
def toDouble (v : ℕ) : ℕ :=
  if v ≤ maxSafeInteger then v
  else
    let unit := 2 ^ (v.log2 - 52)
    let q := v / unit
    let r := 2 * (v % unit)
    if r < unit ∨ (r = unit ∧ q % 2 = 0) then q * unit else (q + 1) * unit

/-- `int` of a column the driver hands over as a number. -/
def int (v : Option ℕ) : Option ℕ := v.map toDouble

/-- A `BIGINT UNSIGNED` column written under `INSERT IGNORE`. -/
def clampBigint (v : ℕ) : ℕ := min v (2 ^ 64 - 1)

inductive Kind
  | lock
  | burn
deriving DecidableEq

structure Origin where
  originChain : Text
  nativeTick : Text
  kind : Kind

/-- What the pass reads besides the database and the mirror. -/
structure Config where
  coin : Text
  network : Text
  /-- `GAS`, the gas tick, and `ADDRESS.GAS`. -/
  gas : Text
  gasAddress : Text
  chainId : Option Text
  /-- `ADDRESS.BRIDGE_<chain>`. -/
  bridgeAddress : Text → Option Text
  /-- `String.prototype.toUpperCase`, which also names a ticker's row. -/
  toUpperCase : Text → Text
  /-- Equality of `utf8_general_ci`. -/
  same : Text → Text → Bool
  same_refl : ∀ t, same t t = true
  same_symm : ∀ t u, same t u = same u t
  /-- `isValidAmountFormat` at the block time. -/
  isValidAmountFormat : ℕ → Text → ℕ → Bool
  /-- The bignumber of an amount text. -/
  value : Text → ℚ
  /-- `TOKEN_BRIDGE_ACTIVATION` (`true`) and `XCHAIN_BRIDGE_ACTIVATION` by height. -/
  bridgeActive : Bool → ℕ → Bool
  policyInheritanceActive : ℕ → Bool
  rowFieldsTerminal : ℕ → Bool
  ledgerAmountPrecisionActive : ℕ → Bool

def xbridgeMaxPerBlock : ℕ := 25

def escrowChain : Text := ['B', 'T', 'C']

def xchain : Text := ['X', 'C', 'H', 'A', 'I', 'N']

/-- `String.prototype.split('.')`. -/
def splitDots (t : Text) : List Text := t.splitOn '.'

def resolveTransferOrigin (c : Config) (r : Row) : Option Origin :=
  if r.srcChain = [] ∨ r.destChain = [] ∨ r.tick = [] ∨ r.srcChain = r.destChain then none
  else if c.toUpperCase r.tick = xchain then
    if r.srcChain = escrowChain then some ⟨escrowChain, r.tick, .lock⟩
    else if r.destChain = escrowChain then some ⟨escrowChain, r.tick, .burn⟩
    else none
  else match splitDots r.tick with
    | [_] => some ⟨r.srcChain, r.tick, .lock⟩
    | [root, name] =>
      if root ≠ [] ∧ name ≠ [] ∧ c.toUpperCase root = c.toUpperCase r.destChain then
        some ⟨r.destChain, name, .burn⟩
      else none
    | _ => none

/-! ### The database -/

inductive Side
  | credit
  | debit
deriving DecidableEq

/-- A row of `credits` or `debits` with what its action's row says. -/
structure Entry where
  side : Side
  actionIndex : ℕ
  block : ℕ
  /-- The block of the action's transaction; an injected action has none. -/
  txBlock : Option ℕ
  /-- The action is a settle leg. -/
  settle : Bool
  address : Text
  /-- The ticker's id. -/
  tick : Text
  amount : ℚ

/-- A `transfer` row of `bridge_settlements`, with the mirrored row it was applied from. -/
structure Settlement where
  actionIndex : ℕ
  transferId : Text
  block : ℕ
  srcChain : Text
  srcActionIndex : ℕ
  localTick : Text
  row : Row

/-- A valid ISSUE that names the tick's owner and decimals. -/
structure Issue where
  tick : Text
  owner : Text
  decimals : ℕ
  block : ℕ

structure ActionRow where
  index : ℕ
  block : ℕ

structure Db where
  actions : List ActionRow
  entries : List Entry
  settlements : List Settlement
  issues : List Issue

/-- The rows of the blocks below a height. -/
def Db.upTo (db : Db) (height : ℕ) : Db where
  actions := db.actions.filter (·.block < height)
  entries := db.entries.filter (·.block < height)
  settlements := db.settlements.filter (·.block < height)
  issues := db.issues.filter (·.block < height)

def getNextActionIndex (db : Db) : ℕ := (db.actions.map ActionRow.index).foldl max 0 + 1

def total (es : List Entry) (side : Side) (address tick : Text) : ℚ :=
  ((es.filter fun e => e.side = side ∧ e.address = address ∧ e.tick = tick).map Entry.amount).sum

/-- What the address holds. -/
def balance (es : List Entry) (address tick : Text) : ℚ :=
  total es .credit address tick - total es .debit address tick

/-- The rows `getAddressBalances` sums when it is given a block and no action: those of a transaction
of an earlier block. -/
def readEntries (es : List Entry) (height : ℕ) : List Entry :=
  es.filter fun e => e.txBlock.any (· < height)

/-- `getAddressBalances(address, null, height)` at one tick: a tick without a credit is absent. -/
def getAddressBalance (es : List Entry) (height : ℕ) (address tick : Text) : ℚ :=
  let read := readEntries es height
  if read.any fun e => e.side = .credit ∧ e.address = address ∧ e.tick = tick then
    bcsub (total read .credit address tick) (total read .debit address tick) 18
  else 0

def tokenRow (c : Config) (db : Db) (tick : Text) : Option Issue :=
  db.issues.reverse.find? fun i => c.toUpperCase i.tick = c.toUpperCase tick

def getTokenDecimalPrecision (c : Config) (db : Db) (tick : Text) : ℕ :=
  tokenDecimalPrecision ((db.issues.filter fun i => c.toUpperCase i.tick = c.toUpperCase tick).map
    fun i => some (numeral i.decimals))

def ledgerWriteScale (c : Config) (db : Db) (height : ℕ) (tick : Text) : ℕ :=
  if c.ledgerAmountPrecisionActive height then 18 else getTokenDecimalPrecision c db tick

/-- `createCredit` and `createDebit`. -/
def createLedgerChangeRecord (c : Config) (db : Db) (height : ℕ) (txBlock : Option ℕ) (settle : Bool)
    (actionIndex : ℕ) (side : Side) (tick : Text) (amount : ℚ) (address : Text) : Db :=
  { db with entries := db.entries ++ [{
      side, actionIndex, block := height, txBlock, settle, address
      tick := c.toUpperCase tick
      amount := bcadd amount 0 (ledgerWriteScale c db height tick) }] }

/-! ### Settlements -/

def isBridgeSettlementRecorded (c : Config) (db : Db) (id : Text) : Bool :=
  db.settlements.any fun st => c.same st.transferId id

def isBridgeSourceLegSettled (c : Config) (db : Db) (srcChain : Text) (srcIndex : ℕ) : Bool :=
  db.settlements.any fun st => c.same st.srcChain srcChain && decide (st.srcActionIndex = srcIndex)

/-- `INSERT IGNORE` under the unique key on the transfer id. -/
def recordBridgeSettlement (c : Config) (db : Db) (st : Settlement) : Db :=
  if isBridgeSettlementRecorded c db st.transferId then db
  else { db with settlements := db.settlements ++ [st] }

/-! ### One transfer -/

inductive Reason
  | notOurs
  | rowFields
  | network
  | chainId
  | notFinalized
  | notDue
  | belowActivation
  | alreadyApplied
  | srcLegApplied
  | amount
  | snapshotAbsent
  | quorum
  | escrowProof
  | escrowMissing
  | escrowShort
  | tokenRow
  | inLegNoPolicy

inductive Quorum
  | absent
  | short
  | met
deriving DecidableEq

inductive Proof
  /-- The proof cannot be had yet: the pass throws. -/
  | unavailable
  | refused
  | accepted
deriving DecidableEq

/-- The answers of the environment for one row. -/
structure Answers where
  quorum : Quorum
  proof : Proof
  policyApplied : Bool
  /-- The verdicts of the injected ISSUEs: of the root or gas row, and of the child row. -/
  rootIssueValid : Bool
  childIssueValid : Bool

/-- The row's values as the later phases use them. -/
structure Fields where
  decimals : ℕ
  snapshot : ℕ
  srcIndex : ℕ

def isGasTick (c : Config) (tick : Text) : Bool := c.toUpperCase tick = c.toUpperCase c.gas

def belowBridgeActivation (c : Config) (r : Row) (height : ℕ) : Bool :=
  !c.bridgeActive (!isGasTick c r.tick) height

def screenRow (c : Config) (r : Row) (height blockTime : ℕ) : Except Reason Fields :=
  match int r.decimals, int r.snapshotBlock, int r.srcActionIndex with
  | some decimals, some snapshot, some srcIndex =>
    if r.transferId = [] ∨ r.srcChain = [] ∨ r.destChain = [] ∨ r.tick = [] ∨ r.destAddress = [] ∨
        r.amount = [] then .error .rowFields
    else if r.network ≠ c.network then .error .network
    else if r.btcChainId.any fun id => c.chainId.any (· ≠ id) then .error .chainId
    else if !r.finalized then .error .notFinalized
    else if r.destChain ≠ c.coin then .error .notOurs
    else if blockTime < r.effectiveTime then .error .notDue
    else if belowBridgeActivation c r height then .error .belowActivation
    else .ok ⟨decimals, snapshot, srcIndex⟩
  | _, _, _ => .error .rowFields

def guardSettledAndAmount (c : Config) (db : Db) (r : Row) (f : Fields) (blockTime : ℕ) :
    Option Reason :=
  if isBridgeSettlementRecorded c db r.transferId then some .alreadyApplied
  else if isBridgeSourceLegSettled c db r.srcChain f.srcIndex then some .srcLegApplied
  else if !c.isValidAmountFormat f.decimals r.amount blockTime ∨ c.value r.amount ≤ 0 then some .amount
  else none

def guardQuorumAndEscrow (a : Answers) : Option Reason :=
  match a.quorum, a.proof with
  | .absent, _ => some .snapshotAbsent
  | .short, _ => some .quorum
  | .met, .refused => some .escrowProof
  | .met, _ => none

/-- An injected ISSUE takes an action index, and its row is there when it was valid. -/
def injectIssue (db : Db) (height : ℕ) (valid : Bool) (tick owner : Text) (decimals : ℕ) : Db :=
  { db with
    actions := db.actions ++ [⟨getNextActionIndex db, height⟩]
    issues := if valid then db.issues ++ [⟨tick, owner, decimals, height⟩] else db.issues }

def gasDecimals : ℕ := 8

/-- `injectProtocolToken`: an existing row is left alone. -/
def injectProtocolToken (c : Config) (db : Db) (height : ℕ) (valid : Bool) (tick owner : Text)
    (decimals : ℕ) : Db :=
  match tokenRow c db tick with
  | some _ => db
  | none => injectIssue db height valid tick owner decimals

def supply (c : Config) (db : Db) (tick : Text) : ℚ :=
  let sum (side : Side) := ((db.entries.filter fun e =>
    e.side = side ∧ e.tick = c.toUpperCase tick).map Entry.amount).sum
  sum .credit - sum .debit

/-- `injectBridgedToken`: the database and the child's tick, or the refusal. The root row may have been
created before the child is refused. -/
def injectBridgedToken (c : Config) (db : Db) (height : ℕ) (a : Answers) (o : Origin) (owner : Text)
    (decimals : ℕ) : Db × Option Text :=
  if (tokenRow c db o.originChain).any fun root => root.owner ≠ owner then (db, none)
  else
    let db := injectProtocolToken c db height a.rootIssueValid o.originChain owner 0
    let child := o.originChain ++ '.' :: o.nativeTick
    match tokenRow c db child with
    | none => (injectIssue db height a.childIssueValid child owner decimals, some child)
    | some info =>
      if info.decimals = decimals then (db, some child)
      else if 0 < supply c db child then (db, none)
      else (injectIssue db height a.childIssueValid child owner decimals, some child)

/-- The credits and debits of a leg. -/
structure Effects where
  localTick : Text
  credits : List (Text × ℚ × Text)
  debits : List (Text × ℚ × Text)

def buildInLegEffects (c : Config) (db : Db) (height : ℕ) (a : Answers) (r : Row) (f : Fields)
    (o : Origin) : Db × Except Reason Effects :=
  let minted (tick : Text) : Effects := ⟨tick, [(tick, c.value r.amount, r.destAddress)], []⟩
  if isGasTick c o.nativeTick then
    (injectProtocolToken c db height a.rootIssueValid c.gas c.gasAddress gasDecimals, .ok (minted c.gas))
  else
    match c.bridgeAddress o.originChain with
    | none => (db, .error .escrowMissing)
    | some owner =>
      match injectBridgedToken c db height a o owner f.decimals with
      | (db, some tick) => (db, .ok (minted tick))
      | (db, none) => (db, .error .tokenRow)

def buildOutLegEffects (c : Config) (db : Db) (height : ℕ) (r : Row) (o : Origin) :
    Except Reason Effects :=
  match c.bridgeAddress r.srcChain with
  | none => .error .escrowMissing
  | some escrow =>
    if (tokenRow c db o.nativeTick).isNone then .error .tokenRow
    else if getAddressBalance db.entries height escrow (c.toUpperCase o.nativeTick) <
        c.value r.amount then .error .escrowShort
    else .ok ⟨o.nativeTick, [(o.nativeTick, c.value r.amount, r.destAddress)],
      [(o.nativeTick, c.value r.amount, escrow)]⟩

/-- The settle action: its ledger rows, the debits first, and its record. -/
def mintSettleAction (c : Config) (db : Db) (height : ℕ) (r : Row) (f : Fields) (e : Effects) : Db :=
  let actionIndex := getNextActionIndex db
  let db := { db with actions := db.actions ++ [⟨actionIndex, height⟩] }
  let write (side : Side) (db : Db) (record : Text × ℚ × Text) : Db :=
    createLedgerChangeRecord c db height none true actionIndex side record.1 record.2.1 record.2.2
  let db := e.debits.foldl (write .debit) db
  let db := e.credits.foldl (write .credit) db
  recordBridgeSettlement c db {
    actionIndex, transferId := r.transferId, block := height, srcChain := r.srcChain
    srcActionIndex := clampBigint f.srcIndex, localTick := c.toUpperCase e.localTick, row := r }

/-- `applyBridgeTransfer`: the database, and the refusal if the row was not applied. -/
def applyBridgeTransfer (c : Config) (db : Db) (height blockTime : ℕ) (r : Row) (a : Answers) :
    Db × Option Reason :=
  match screenRow c r height blockTime with
  | .error reason => (db, some reason)
  | .ok f =>
    match resolveTransferOrigin c r with
    | none => (db, some .rowFields)
    | some o =>
      match guardSettledAndAmount c db r f blockTime with
      | some reason => (db, some reason)
      | none =>
        match guardQuorumAndEscrow a with
        | some reason => (db, some reason)
        | none =>
          if o.kind = .lock ∧ !isGasTick c r.tick ∧ c.policyInheritanceActive height ∧
              !a.policyApplied then (db, some .inLegNoPolicy)
          else
            let (db, effects) := match o.kind with
              | .lock => buildInLegEffects c db height a r f o
              | .burn => (db, buildOutLegEffects c db height r o)
            match effects with
            | .error reason => (db, some reason)
            | .ok e => (mintSettleAction c db height r f e, none)

/-! ### The pass -/

def transferRefusalIsTerminal (c : Config) (height : ℕ) : Reason → Bool
  | .quorum | .escrowProof | .escrowMissing | .escrowShort | .tokenRow => true
  | .rowFields => c.rowFieldsTerminal height
  | _ => false

/-- `unsettledBridgeTransfers` over the rows the mirror query gave. -/
def unsettledBridgeTransfers (c : Config) (db : Db) (height : ℕ) (mirror : List Row) : List Row :=
  let rows := mirror.filter fun r => !belowBridgeActivation c r height
  let seen := (db.settlements.filter fun st => rows.any fun r => c.same st.transferId r.transferId).map
    Settlement.transferId
  (rows.filter fun r => r.transferId ∉ seen).filter fun r =>
    match int r.srcActionIndex with
    | none => true
    | some idx => r.srcChain = [] || !db.settlements.any fun st =>
        decide (st.srcChain = r.srcChain) && decide (toDouble st.srcActionIndex = idx)

/-- The rows still before the pass, and the slots it has used. -/
structure Pass where
  due : List Row
  slots : ℕ

structure State where
  db : Db
  height : ℕ
  blockTime : ℕ
  pass : Option Pass

inductive Event
  /-- A ledger row of any other action, of a transaction of this block or injected. -/
  | ledger (side : Side) (transaction : Bool) (tick : Text) (amount : ℚ) (address : Text)
  /-- A valid ISSUE of any other action. -/
  | issue (tick owner : Text) (decimals : ℕ)
  | beginPass (mirror : List Row)
  /-- The next row of the pass, with the environment's answers for it. -/
  | applyNext (answers : Answers)
  | nextBlock (blockTime : ℕ)
  | reorg (height : ℕ)

/-- The reorg to a height, also of the block under way. -/
def rollback (s : State) (height : ℕ) : State :=
  { s with db := s.db.upTo height, height := min s.height height, pass := none }

/-- The answer to the quorum is met and the proof is not there: the block is put off. -/
def stalls (c : Config) (s : State) (r : Row) (a : Answers) : Bool :=
  match screenRow c r s.height s.blockTime with
  | .error _ => false
  | .ok f => (resolveTransferOrigin c r).isSome && a.quorum = .met && a.proof = .unavailable &&
      (guardSettledAndAmount c s.db r f s.blockTime).isNone

/-- The block of an action's transaction. -/
def txBlockOf (s : State) (transaction : Bool) : Option ℕ := if transaction then some s.height else none

def step (c : Config) (s : State) : Event → Option State
  | .ledger side transaction tick amount address =>
    -- Another handler never debits more than the address holds.
    if s.pass.isSome ∨ amount < 0 then none
    else
      let actionIndex := getNextActionIndex s.db
      let db := { s.db with actions := s.db.actions ++ [⟨actionIndex, s.height⟩] }
      let db := createLedgerChangeRecord c db s.height (txBlockOf s transaction) false actionIndex side
        tick amount address
      if side = .debit ∧ balance db.entries address (c.toUpperCase tick) < 0 then none
      else some { s with db }
  | .issue tick owner decimals =>
    if s.pass.isSome then none
    else some { s with db := injectIssue s.db s.height true tick owner decimals }
  | .beginPass mirror =>
    if s.pass.isSome then none
    else some { s with pass := some ⟨unsettledBridgeTransfers c s.db s.height mirror, 0⟩ }
  | .applyNext answers =>
    match s.pass with
    | some ⟨r :: due, slots⟩ =>
      if xbridgeMaxPerBlock ≤ slots then none
      else if stalls c s r answers then some (rollback s s.height)
      else
        let (db, refusal) := applyBridgeTransfer c s.db s.height s.blockTime r answers
        let held := !refusal.any (transferRefusalIsTerminal c s.height)
        some { s with db, pass := some ⟨due, if held then slots + 1 else slots⟩ }
    | _ => none
  | .nextBlock blockTime => some { s with height := s.height + 1, blockTime, pass := none }
  | .reorg height => some (rollback s height)

def init : State := ⟨⟨[], [], [], []⟩, 0, 0, none⟩

end XChainIndexer.BridgeSettle.Transfer
