import XChainIndexer.Lib.Keyed
import XChainIndexer.Tokens.Numerals
import Mathlib.Data.List.TakeWhile

/-! # The ledger rows of an action

A handler stages credits, debits and escrows as lists of (tick, amount, address) and hands them to
`processTransactionLedgerChanges` (`utility/ledger.js`), which consolidates each list by the literal
text `tick \0 address` and writes one row per consolidated record through
`createLedgerChangeRecord` (`db/misc/index.js`). The row writer resolves both names to ids, records
the touched balance key, quantizes the amount and upserts the row under
(action index, address id, tick id). -/

namespace XChainIndexer.Ledger.Records

open Bcmath IndexTables Lib.Keyed Tokens.Numerals

/-! ### The database and what the process remembers about it -/

inductive LedgerTable
  | credits
  | debits
  | escrows
deriving DecidableEq

/-- A row of a ledger table. -/
structure LedgerRow where
  actionIndex : ℕ
  addressId : Option ℕ
  tickId : Option ℕ
  amount : ℚ

/-- The decimals a valid ISSUE row gave a tick. -/
structure IssueRow where
  tickId : ℕ
  decimals : Option Text

/-- The tables a ledger write reads and writes. -/
structure Db where
  names : Names
  issues : List IssueRow
  credits : List LedgerRow
  debits : List LedgerRow
  escrows : List LedgerRow

/-- The light-client capture the process keeps beside the database: the touched keys of the block
(`none` when no set is installed) and the id-to-name memos. -/
structure SmtMemo where
  touched : Option (List Text)
  tickNames : List (ℕ × Text)
  addressNames : List (ℕ × Text)

structure Node where
  db : Db
  smt : SmtMemo

/-- What a block's ledger writes read besides the node. -/
structure BlockCtx extends Ctx where
  ledgerAmountPrecisionActive : Bool

def Db.rows (db : Db) : LedgerTable → List LedgerRow
  | .credits => db.credits
  | .debits => db.debits
  | .escrows => db.escrows

def Db.setRows (db : Db) (rows : List LedgerRow) : LedgerTable → Db
  | .credits => { db with credits := rows }
  | .debits => { db with debits := rows }
  | .escrows => { db with escrows := rows }

section
variable (db : Db) (rows : List LedgerRow)

@[simp] theorem Db.rows_setRows (t t' : LedgerTable) :
    (db.setRows rows t).rows t' = if t' = t then rows else db.rows t' := by
  cases t <;> cases t' <;> rfl

@[simp] theorem Db.names_setRows (t : LedgerTable) : (db.setRows rows t).names = db.names := by
  cases t <;> rfl

@[simp] theorem Db.issues_setRows (t : LedgerTable) : (db.setRows rows t).issues = db.issues := by
  cases t <;> rfl

end

/-! ### The touched key -/

/-- `smtTickName` and `smtAddressName`: a memo in front of the name of an id. A name found is
remembered, an absence is not. -/
def smtName (rows : List IndexRow) (memo : List (ℕ × Text)) (id : ℕ) :
    List (ℕ × Text) × Option Text :=
  match memo.lookup id with
  | some name => (memo, some name)
  | none =>
    match rows.find? fun r => r.id = id with
    | some r => if r.name = [] then (memo, some r.name) else ((id, r.name) :: memo, some r.name)
    | none => (memo, none)

/-- `canonAddr + '\t' + canonTick`. -/
def touchedKey (address tick : Text) : Text := address ++ '\t' :: tick

def recordTouchedKey (n : Node) (tickId addressId : Option ℕ) : Node :=
  match n.smt.touched, tickId, addressId with
  | some touched, some t, some a =>
    let (tickNames, canonTick) := smtName n.db.names.tickers n.smt.tickNames t
    let (addressNames, canonAddr) := smtName n.db.names.addresses n.smt.addressNames a
    let touched := match canonTick, canonAddr with
      | some tick, some addr =>
        if tick ≠ [] ∧ addr ≠ [] then touchedKey addr tick :: touched else touched
      | _, _ => touched
    { n with smt := { touched := some touched, tickNames, addressNames } }
  | _, _, _ => n

@[simp] theorem recordTouchedKey_db (n : Node) (tickId addressId : Option ℕ) :
    (recordTouchedKey n tickId addressId).db = n.db := by
  unfold recordTouchedKey
  split <;> rfl

/-! ### One row -/

def getTokenDecimalPrecision (issues : List IssueRow) (tickId : Option ℕ) : ℕ :=
  tokenDecimalPrecision ((issues.filter fun i => some i.tickId = tickId).map IssueRow.decimals)

def ledgerAmountPrecision : ℕ := 18

/-- The scale a row's amount is quantized at. -/
def ledgerWriteScale (c : BlockCtx) (issues : List IssueRow) (tickId : Option ℕ) : ℕ :=
  if c.ledgerAmountPrecisionActive then ledgerAmountPrecision
  else getTokenDecimalPrecision issues tickId

/-- The columns the upsert selects by. A `NULL` id matches no row. -/
def LedgerRow.key (r : LedgerRow) : Option (ℕ × ℕ × ℕ) :=
  match r.addressId, r.tickId with
  | some a, some t => some (r.actionIndex, a, t)
  | _, _ => none

def upsertRow (db : Db) (t : LedgerTable) (row : LedgerRow) : Db :=
  db.setRows (upsert LedgerRow.key (db.rows t) row) t

/-! ### Records -/

/-- The separator of a consolidation key. -/
def nul : Char := Char.ofNat 0

/-- A tick or address as a handler spells it; `\0` appears in neither. -/
structure Spelling where
  text : Text
  noNul : nul ∉ text

/-- A staged credit, debit or escrow. -/
structure Record where
  tick : Spelling
  amount : ℚ
  address : Spelling

/-- `tick + '\0' + address`. -/
def Record.key (r : Record) : Text := r.tick.text ++ nul :: r.address.text

/-- The part of a text before the first `\0`. -/
def beforeNul (t : Text) : Spelling where
  text := t.takeWhile (· ≠ nul)
  noNul h := by simpa using List.mem_takeWhile_imp h

/-- `[tick, address] = key.split('\0')`. -/
def splitKey (key : Text) : Spelling × Spelling :=
  (beforeNul key, beforeNul ((key.dropWhile (· ≠ nul)).drop 1))

def consolidateLedgerRecords (records : List Record) : List Record :=
  (consolidate (fun previous amount => bcadd previous amount 18)
    (records.map fun r => (r.key, r.amount))).map fun (key, amount) =>
      { tick := (splitKey key).1, amount, address := (splitKey key).2 }

/-! ### The action's changes -/

/-- The ids a record's names resolve to, with the names the lookups intern. -/
def resolveRecord (c : BlockCtx) (n : Names) (r : Record) : Names × Option ℕ × Option ℕ :=
  let (n, tickId) := createTicker c.toCtx n r.tick.text
  let (n, addressId) := createAddress c.toCtx n r.address.text
  (n, tickId, addressId)

def createLedgerChangeRecord (c : BlockCtx) (t : LedgerTable) (actionIndex : ℕ) (n : Node)
    (r : Record) : Node :=
  let (names, tickId, addressId) := resolveRecord c n.db.names r
  let n := { n with db := { n.db with names } }
  let n := recordTouchedKey n tickId addressId
  let amount := bcadd r.amount 0 (ledgerWriteScale c n.db.issues tickId)
  { n with db := upsertRow n.db t { actionIndex, addressId, tickId, amount } }

/-- The lists an action stages. -/
structure LedgerChanges where
  credits : List Record
  debits : List Record
  escrows : List Record

def LedgerChanges.records (ch : LedgerChanges) : LedgerTable → List Record
  | .credits => ch.credits
  | .debits => ch.debits
  | .escrows => ch.escrows

/-- Write the consolidated records of one list. -/
def writeRecords (c : BlockCtx) (t : LedgerTable) (actionIndex : ℕ) (n : Node)
    (records : List Record) : Node :=
  (consolidateLedgerRecords records).foldl (createLedgerChangeRecord c t actionIndex) n

def processTransactionLedgerChanges (c : BlockCtx) (n : Node) (actionIndex : ℕ)
    (ch : LedgerChanges) : Node :=
  let n := writeRecords c .debits actionIndex n ch.debits
  let n := writeRecords c .credits actionIndex n ch.credits
  writeRecords c .escrows actionIndex n ch.escrows

end XChainIndexer.Ledger.Records
