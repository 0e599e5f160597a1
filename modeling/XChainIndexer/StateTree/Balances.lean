import XChainIndexer.Lib.Run
import XChainIndexer.StateTree.Engine
import XChainIndexer.StateTree.Guards

/-! # The balances root of a run of blocks

`balancesRootForBlock` of `state_commitment/index.js`. The first block with a commitment, the block that
arms the leaves of locked escrows and a block without the root of the block before build the tree from all
balances (`full_balances_root.js`); any other block threads what it touched onto that root. The leaves of
locked escrows come from a journal (`consensus/escrow_leaf_subtree.js`): a full build takes the last row of
every locker, a threaded block the rows that it wrote itself.

The rows of the journal and the order in which a query returns balances are the database's; the tree does
not depend on the order. -/

namespace XChainIndexer.StateTree.Balances

open IndexTables Ledger.Records Lib.NodeStore StateTree.Guards

/-- The hashes, with the keys of locked escrows. -/
structure EscrowMerkle (H : Type) extends Merkle H where
  escrowKey : Text → Text → List Bool
  escrowKey_length : ∀ address tick, (escrowKey address tick).length = depth

/-- A row of `escrow_leaf_journal`, in the order of the ids. -/
structure JournalRow where
  addressId : ℕ
  tickId : ℕ
  /-- `none` for a row without an amount. -/
  lockedAmount : Option ℚ
  blockIndex : ℕ

/-! ### Reading by id -/

/-- An address and a tick of the index tables. -/
abbrev Pair := IndexRow × IndexRow

def pairs (names : Names) : List Pair := names.addresses.product names.tickers

def Pair.names (q : Pair) : Text × Text := (q.1.name, q.2.name)

def pairSum (rows : List LedgerRow) (q : Pair) : ℚ :=
  ((rows.filter fun r => r.addressId = some q.1.id && r.tickId = some q.2.id).map LedgerRow.amount).sum

def pairNet (db : Db) (q : Pair) : ℚ := pairSum db.credits q - pairSum db.debits q

def getNonzeroNetBalances (db : Db) : List (Pair × ℚ) :=
  ((pairs db.names).map fun q => (q, pairNet db q)).filter fun b => b.2 ≠ 0

/-- The last row of a locker. -/
def latest (journal : List JournalRow) (q : Pair) : Option JournalRow :=
  (journal.filter fun j => j.addressId = q.1.id && j.tickId = q.2.id).getLast?

/-! ### Reading by name -/

/-- The comparison of the two columns. -/
def same (c : Collation) (n n' : Text × Text) : Bool :=
  c.generalCi n.1 = c.generalCi n'.1 && rtrim n.2 = rtrim n'.2

def touchedEscrowKeys (names : Names) (journal : List JournalRow) (blockIndex : ℕ) : List (Text × Text) :=
  ((journal.filter fun j => j.blockIndex = blockIndex).flatMap fun j =>
    ((pairs names).filter fun q => j.addressId = q.1.id && j.tickId = q.2.id).map Pair.names).dedup

def latestLockedAmount (c : Collation) (names : Names) (journal : List JournalRow) (n : Text × Text) :
    Option ℚ :=
  ((journal.filter fun j => (pairs names).any fun q =>
    j.addressId = q.1.id && j.tickId = q.2.id && same c q.names n).getLast?).bind JournalRow.lockedAmount

/-! ### Leaves -/

section leaves
variable {H : Type}

abbrev Update (H : Type) := List Bool × Option H

def escrowLeaf (M : EscrowMerkle H) (n : Text × Text) : Option ℚ → Except Refusal (Option H)
  | none => .ok none
  | some amount => leafOrNull M.toMerkle (touchedKey n.1 n.2) amount

def balanceUpdate (M : EscrowMerkle H) (b : Pair × ℚ) : Except Refusal (Update H) :=
  (leafOrNull M.toMerkle (touchedKey b.1.1.name b.1.2.name) b.2).map fun leaf =>
    (M.balanceKey b.1.1.name b.1.2.name, leaf)

def escrowUpdate (M : EscrowMerkle H) (n : Text × Text) (amount : Option ℚ) : Except Refusal (Update H) :=
  (escrowLeaf M n amount).map fun leaf => (M.escrowKey n.1 n.2, leaf)

/-- The leaves of all balances that are not zero. -/
def allBalances (M : EscrowMerkle H) (db : Db) : Except Refusal (List (Update H)) :=
  ((getNonzeroNetBalances db).mapM (balanceUpdate M)).map (·.filter (·.2.isSome))

def liveEscrowLeaves (M : EscrowMerkle H) (names : Names) (journal : List JournalRow) :
    Except Refusal (List (Update H)) :=
  (((pairs names).filterMap fun q => (latest journal q).map fun j => (q, j)).mapM fun l =>
    escrowUpdate M l.1.names l.2.lockedAmount).map (·.filter (·.2.isSome))

def touchedEscrowLeaves (M : EscrowMerkle H) (c : Collation) (names : Names) (journal : List JournalRow)
    (blockIndex : ℕ) : Except Refusal (List (Update H)) :=
  (touchedEscrowKeys names journal blockIndex).mapM fun n =>
    escrowUpdate M n (latestLockedAmount c names journal n)

/-- The leaves of locked escrows, below the height at which they are armed none. -/
def whenArmed (armed : Bool) (leaves : Except Refusal (List (Update H))) : Except Refusal (List (Update H)) :=
  if armed then leaves else .ok []

def fullUpdates (M : EscrowMerkle H) (armed : Bool) (db : Db) (journal : List JournalRow) :
    Except Refusal (List (Update H)) := do
  let balances ← allBalances M db
  let escrows ← whenArmed armed (liveEscrowLeaves M db.names journal)
  return balances ++ escrows

variable [DecidableEq H]

def buildFullBalancesRoot (M : EscrowMerkle H) (armed : Bool) (db : Db) (journal : List JournalRow)
    (nodes : Store H) : Except Refusal (Store H × H) :=
  (fullUpdates M armed db journal).map fun updates =>
    applyEscrowLeaves M.toMerkle updates (nodes, M.empty M.depth)

end leaves

/-! ### Blocks -/

structure Config where
  collation : Collation
  /-- The first block with a commitment. -/
  activation : ℕ
  /-- `ESCROW_LOCKED_LEAF_ACTIVATION`. -/
  escrowLeaves : Option ℕ

def isEscrowLockedLeafActive (cfg : Config) (blockIndex : ℕ) : Bool :=
  cfg.escrowLeaves.any (· ≤ blockIndex)

/-- The database as the last block left it. -/
structure Chain (H : Type) where
  next : ℕ
  db : Db
  journal : List JournalRow
  nodes : Store H
  /-- `balances_root` of `state_tree_roots`. -/
  roots : ℕ → Option H

inductive Event
  /-- A block with what it left of the ledger, what it touched and its rows of the journal. -/
  | block (c : BlockCtx) (s : Ledger.Block.State) (rows : List JournalRow)
  /-- The root of the last block is lost. -/
  | lose

variable {H : Type} [DecidableEq H]

def threadRoot (M : EscrowMerkle H) (cfg : Config) (c : BlockCtx) (s : Ledger.Block.State)
    (journal : List JournalRow) (prior : Store H × H) : Except Refusal (Store H × H) := do
  let escrows ← whenArmed (isEscrowLockedLeafActive cfg c.blockIndex)
    (touchedEscrowLeaves M cfg.collation s.db.names journal c.blockIndex)
  threadBalancesRoot M.toMerkle c s prior escrows

def balancesRootForBlock (M : EscrowMerkle H) (cfg : Config) (chain : Chain H) (c : BlockCtx)
    (s : Ledger.Block.State) (journal : List JournalRow) : Except Refusal (Store H × H) :=
  let armed := isEscrowLockedLeafActive cfg c.blockIndex
  let armingBlock := armed && !isEscrowLockedLeafActive cfg (c.blockIndex - 1)
  let prior := if c.blockIndex = cfg.activation then none else chain.roots (c.blockIndex - 1)
  match prior with
  | none => buildFullBalancesRoot M armed s.db.toDb journal chain.nodes
  | some root =>
    if armingBlock then buildFullBalancesRoot M armed s.db.toDb journal chain.nodes
    else threadRoot M cfg c s journal (chain.nodes, root)

/-- A block after the last one, with its rows of the journal; a block that is refused is not stored. -/
def step (M : EscrowMerkle H) (cfg : Config) (chain : Chain H) : Event → Option (Chain H)
  | .block c s rows =>
    let journal := chain.journal ++ rows.map fun j => { j with blockIndex := c.blockIndex }
    if c.blockIndex = chain.next then
      match balancesRootForBlock M cfg chain c s journal with
      | .error _ => none
      | .ok (nodes, root) => some {
          next := c.blockIndex + 1
          db := s.db.toDb
          journal
          nodes
          roots := Function.update chain.roots c.blockIndex (some root) }
    else none
  | .lose => some { chain with roots := Function.update chain.roots (chain.next - 1) none }

end XChainIndexer.StateTree.Balances
