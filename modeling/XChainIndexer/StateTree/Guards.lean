import XChainIndexer.Ledger.Block
import XChainIndexer.StateTree.Smt

/-! # The balances root of a block and its guards

At the end of a block `threadBalancesRoot` (`state_commitment/index.js`) writes the balance of every
touched key into the tree of the block before, then the leaves of locked escrows, and runs the two
guards of `state_commitment/touch_guards.js`: every key the block's credits and debits name is touched,
and its leaf is in the new tree unless the balance is zero. -/

namespace XChainIndexer.StateTree.Guards

open Bcmath IndexTables Ledger.Records Ledger.Block Lib.NodeStore StateTree.Smt

/-- The hashes of `consensus/merkle/primitives.js`. -/
structure Merkle (H : Type) extends NodeHash H where
  /-- `leafHash(canonicalAmount(amount))`. -/
  amountLeaf : ℚ → H
  amountLeaf_ne : ∀ amount, amountLeaf amount ≠ empty0
  depth : ℕ
  balanceKey : Text → Text → List Bool
  balanceKey_length : ∀ address tick, (balanceKey address tick).length = depth

/-! ### Reading the ledger -/

/-- The names a ledger row joins to. -/
def joinNames (db : Db) (r : LedgerRow) : List (Text × Text) :=
  (db.names.addresses.filter fun a => some a.id = r.addressId).flatMap fun a =>
    (db.names.tickers.filter fun t => some t.id = r.tickId).map fun t => (a.name, t.name)

/-- The action of the row is one of the block. -/
def ofBlock (db : BlockDb) (blockIndex : ℕ) (r : LedgerRow) : Bool :=
  db.actions.any fun a => a.actionIndex = r.actionIndex && a.blockIndex = blockIndex

/-- The keys this block's credits and debits name. -/
def ledgerKeysForBlock (db : BlockDb) (blockIndex : ℕ) : List Text :=
  ((((db.credits ++ db.debits).filter (ofBlock db blockIndex)).flatMap (joinNames db.toDb)).filter
    fun n => n.2 ≠ []).map fun n => touchedKey n.1 n.2

/-- The sum of the rows of an address and tick, as the columns compare them. -/
def ledgerSum (c : Ctx) (db : Db) (rows : List LedgerRow) (address tick : Text) : ℚ :=
  ((rows.filter fun r => (joinNames db r).any fun n =>
    c.collation.generalCi n.1 = c.collation.generalCi address && rtrim n.2 = rtrim tick).map
      LedgerRow.amount).sum

def getNetBalance (c : Ctx) (db : Db) (address tick : Text) : ℚ :=
  bcsub (ledgerSum c db db.credits address tick) (ledgerSum c db db.debits address tick) 18

/-! ### The root -/

inductive Refusal
  /-- `canonicalAmount` of something that is no amount. -/
  | nonCanonicalAmount (entry : Text)
  | touchedSet (missing : List Text)
  | leafPresence (absent : List Text)
deriving DecidableEq

variable {H : Type}

/-- `entry.split('\t')`, of which the first two parts are used. -/
def splitEntry (entry : Text) : Text × Text :=
  (entry.takeWhile (· ≠ '\t'), ((entry.dropWhile (· ≠ '\t')).drop 1).takeWhile (· ≠ '\t'))

/-- `leafOrNull`; a negative balance has no canonical form. -/
def leafOrNull (M : Merkle H) (entry : Text) (net : ℚ) : Except Refusal (Option H) :=
  if net < 0 then .error (.nonCanonicalAmount entry)
  else .ok (if net = 0 then none else some (M.amountLeaf net))

/-- The leaf of a touched entry. The balances were read under the first two parts of each entry, so an
entry with a third part finds none. -/
def entryLeaf (M : Merkle H) (c : Ctx) (db : Db) (entry : Text) : Except Refusal (Option H) :=
  let (address, tick) := splitEntry entry
  if touchedKey address tick = entry then leafOrNull M entry (getNetBalance c db address tick)
  else .error (.nonCanonicalAmount entry)

def entryKey (M : Merkle H) (entry : Text) : List Bool :=
  M.balanceKey (splitEntry entry).1 (splitEntry entry).2

variable [DecidableEq H]

def applyBalances (M : Merkle H) (c : Ctx) (db : Db) :
    List Text → Store H × H → Except Refusal (Store H × H)
  | [], tree => .ok tree
  | entry :: entries, tree =>
    match entryLeaf M c db entry with
    | .error refusal => .error refusal
    | .ok leaf => applyBalances M c db entries
        (update M.toNodeHash tree.1 tree.2 (entryKey M entry) leaf)

/-- The leaves of the locked escrows, under keys of their own. -/
def applyEscrowLeaves (M : Merkle H) (leaves : List (List Bool × Option H)) (tree : Store H × H) :
    Store H × H :=
  leaves.foldl (fun tree l => update M.toNodeHash tree.1 tree.2 l.1 l.2) tree

/-! ### The guards -/

/-- The touched keys in the order they were first added. -/
def touchedEntries (smt : SmtMemo) : List Text := (smt.touched.getD []).reverse.eraseDups

def enforceTouchedSet (expected touched : List Text) : Except Refusal Unit :=
  let missing := expected.filter fun k => k ∉ touched
  if missing = [] then .ok () else .error (.touchedSet missing)

/-- The leaf of a key the ledger moved is absent although its balance is not zero. -/
def leafAbsent (M : Merkle H) (c : Ctx) (db : Db) (tree : Store H × H) (entry : Text) : Bool :=
  prove M.toNodeHash tree.1 tree.2 (entryKey M entry) = none &&
    (getNetBalance c db (splitEntry entry).1 (splitEntry entry).2 ≠ 0)

def assertCommittedLeaves (M : Merkle H) (c : Ctx) (db : Db) (tree : Store H × H)
    (expected : List Text) : Except Refusal Unit :=
  let absent := expected.filter (leafAbsent M c db tree)
  if absent = [] then .ok () else .error (.leafPresence absent)

/-- The incremental balances root of a block. -/
def threadBalancesRoot (M : Merkle H) (c : BlockCtx) (s : State) (prior : Store H × H)
    (escrows : List (List Bool × Option H)) : Except Refusal (Store H × H) := do
  let touched := touchedEntries s.smt
  let tree ← applyBalances M c.toCtx s.db.toDb touched prior
  let tree := applyEscrowLeaves M escrows tree
  let expected := ledgerKeysForBlock s.db c.blockIndex
  enforceTouchedSet expected touched
  assertCommittedLeaves M c.toCtx s.db.toDb tree expected
  return tree

end XChainIndexer.StateTree.Guards
