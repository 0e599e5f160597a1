import XChainIndexer.Ledger.Records
import XChainIndexer.Lib.Savepoint

/-! # Ledger writes inside a block transaction

A block runs its actions in one transaction. Contract executions, callbacks and guards open savepoints
in it and may roll back to them, which takes index rows, action rows and ledger rows back
(`db/database/controllers_vm.js`). What the process remembers for the light client, the touched keys
and the id-to-name memos, is no part of the database and is not taken back. -/

namespace XChainIndexer.Ledger.Block

open IndexTables Ledger.Records Lib.Savepoint

structure ActionRow where
  actionIndex : ℕ
  blockIndex : ℕ

structure BlockDb extends Db where
  actions : List ActionRow

structure State where
  tx : Tx Text BlockDb
  smt : SmtMemo

def State.db (s : State) : BlockDb := s.tx.cur

/-- `openBlockTransaction` with the state commitment active: a fresh set of touched keys. The memos are
empty, as the end of every block and every rolled-back transaction leaves them. -/
def openBlock (db : BlockDb) : State where
  tx := ⟨db, []⟩
  smt := ⟨some [], [], []⟩

def getNextActionIndex (db : BlockDb) : ℕ := (db.actions.map ActionRow.actionIndex).foldl max 0 + 1

def createActionIndex (c : BlockCtx) (db : BlockDb) : BlockDb :=
  { db with actions := db.actions ++ [⟨getNextActionIndex db, c.blockIndex⟩] }

inductive Event
  | action
  | ledger (table : LedgerTable) (actionIndex : ℕ) (record : Record)
  | ticker (tick : Text)
  | address (address : Text)
  /-- A valid ISSUE row. -/
  | issue (row : IssueRow)
  | createSavepoint (name : Text)
  | releaseSavepoint (name : Text)
  | rollbackToSavepoint (name : Text)

def State.writeDb (s : State) (db : BlockDb) : State := { s with tx := s.tx.write db }

def State.writeNames (s : State) (names : Names) : State :=
  s.writeDb { s.db with toDb := { s.db.toDb with names } }

/-- `createLedgerChangeRecord` on the data and the memos as they stand. -/
def State.writeRecord (c : BlockCtx) (s : State) (t : LedgerTable) (actionIndex : ℕ) (r : Record) :
    State :=
  let n := createLedgerChangeRecord c t actionIndex ⟨s.db.toDb, s.smt⟩ r
  { s.writeDb { s.db with toDb := n.db } with smt := n.smt }

def step (c : BlockCtx) (s : State) : Event → Option State
  | .action => some (s.writeDb (createActionIndex c s.db))
  | .ledger t actionIndex r => some (s.writeRecord c t actionIndex r)
  | .ticker tick => some (s.writeNames (createTicker c.toCtx s.db.names tick).1)
  | .address address => some (s.writeNames (createAddress c.toCtx s.db.names address).1)
  | .issue row => some (s.writeDb { s.db with toDb := { s.db.toDb with issues := s.db.issues ++ [row] } })
  | .createSavepoint name => some { s with tx := s.tx.savepoint name }
  | .releaseSavepoint name => (s.tx.release name).map fun tx => { s with tx }
  | .rollbackToSavepoint name => (s.tx.rollbackTo name).map fun tx => { s with tx }

end XChainIndexer.Ledger.Block
