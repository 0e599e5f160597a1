import XChainIndexer.Lib.FixedTree
import XChainIndexer.SnapshotProof.Encoding

/-! # The content of a block and its Merkle root

`blockMerkleLeaves` of `consensus/merkle.js`: the ledger rows of a block, its actions and the rows of the
six contract tables, each as a leaf, in a fixed order. A leaf is the hash of the row's fields, joined by a
zero byte behind the letter of the row's section; a field that holds a zero byte is refused. The root is
that of `fixedMerkleRoot`, and `verifyFixedMerkleProof` checks a proof against it.

A column that may be `NULL` is an option here. Where the source guards it, `NULL` is written as the empty
text, otherwise as the text `null`. -/

namespace XChainIndexer.BlockMerkle.Content

open IndexTables Lib.MerklePath SnapshotProof.Encoding

/-! ### Rows -/

structure LedgerRow where
  action_index : ℕ
  address : Option Text
  tick : Option Text
  amount : Option Text
deriving DecidableEq

structure ActionRow where
  action_index : ℕ
  tx_index : Option ℕ
  action : Option Text
deriving DecidableEq

structure ContractRow where
  action_index : ℕ
  source_address : Option Text
  code_hash : Option Text
  status : Option Text
deriving DecidableEq

structure StateRow where
  contract_index : ℕ
  state_key : Option Text
  state_value : Option Text
deriving DecidableEq

structure ExecutionRow where
  action_index : ℕ
  contract_index : Option ℕ
  caller_address : Option Text
  gas_used : Option ℕ
  status : Option Text
  emitted_count : Option ℕ
deriving DecidableEq

structure EmissionRow where
  execution_index : ℕ
  emitted_action : Option Text
  action_index : Option ℕ
  position : ℕ
deriving DecidableEq

/-- A row of `deposits` or `withdrawals`. -/
structure TransferRow where
  action_index : ℕ
  contract_index : Option ℕ
  source_address : Option Text
  tick : Option Text
  amount : Option Text
  status : Option Text
deriving DecidableEq

inductive LedgerKind
  | credit
  | debit
  | escrow
deriving DecidableEq

inductive TransferKind
  | deposits
  | withdrawals
deriving DecidableEq

def LedgerKind.text : LedgerKind → Text
  | .credit => "credit".toList
  | .debit => "debit".toList
  | .escrow => "escrow".toList

def TransferKind.text : TransferKind → Text
  | .deposits => "deposits".toList
  | .withdrawals => "withdrawals".toList

/-- A row with the section it is in. -/
inductive Row
  | ledger (kind : LedgerKind) (r : LedgerRow)
  | action (r : ActionRow)
  | contract (r : ContractRow)
  | state (r : StateRow)
  | execution (r : ExecutionRow)
  | emission (r : EmissionRow)
  | transfer (kind : TransferKind) (r : TransferRow)

/-- The canonical rows of a block. -/
structure BlockRows where
  credits : List LedgerRow
  debits : List LedgerRow
  escrows : List LedgerRow
  actions : List ActionRow
  contracts : List ContractRow
  state : List StateRow
  executions : List ExecutionRow
  emissions : List EmissionRow
  deposits : List TransferRow
  withdrawals : List TransferRow
deriving DecidableEq

/-! ### Leaves -/

/-- `String(n)`. -/
def numText (n : ℕ) : Text := n.repr.toList

/-- `_c(t)`. -/
def orEmpty (t : Option Text) : Text := t.getD []

/-- `_c(n)`. -/
def orEmptyNum (n : Option ℕ) : Text := orEmpty (n.map numText)

/-- `String(t)` of a column that may be `NULL`. -/
def orNull (t : Option Text) : Text := t.getD "null".toList

def orNullNum (n : Option ℕ) : Text := orNull (n.map numText)

/-- The fields that are joined for a row. -/
def Row.parts : Row → List Text
  | .ledger kind r => ["L".toList, kind.text, numText r.action_index, orEmpty r.address, orEmpty r.tick,
      orNull r.amount]
  | .action r => ["A".toList, numText r.action_index, orEmptyNum r.tx_index, orEmpty r.action]
  | .contract r => ["C".toList, "contracts".toList, numText r.action_index, orEmpty r.source_address,
      orEmpty r.code_hash, orEmpty r.status]
  | .state r => ["C".toList, "state".toList, numText r.contract_index, orEmpty r.state_key,
      orEmpty r.state_value]
  | .execution r => ["C".toList, "executions".toList, numText r.action_index,
      orNullNum r.contract_index, orEmpty r.caller_address, orEmptyNum r.gas_used, orEmpty r.status,
      orEmptyNum r.emitted_count]
  | .emission r => ["C".toList, "emissions".toList, numText r.execution_index, orEmpty r.emitted_action,
      orNullNum r.action_index, numText r.position]
  | .transfer kind r => ["C".toList, kind.text, numText r.action_index, orNullNum r.contract_index,
      orEmpty r.source_address, orEmpty r.tick, orNull r.amount, orEmpty r.status]

/-- What `leafHash` hashes for a row; `none` where `joinFields` throws. -/
def Row.leafInput (r : Row) : Option Bytes := (joinFields r.parts).map (0 :: ·)

/-- The rows in the order of their leaves. -/
def BlockRows.rows (b : BlockRows) : List Row :=
  b.credits.map (.ledger .credit) ++ b.debits.map (.ledger .debit) ++ b.escrows.map (.ledger .escrow) ++
    b.actions.map .action ++ b.contracts.map .contract ++ b.state.map .state ++
    b.executions.map .execution ++ b.emissions.map .emission ++ b.deposits.map (.transfer .deposits) ++
    b.withdrawals.map (.transfer .withdrawals)

def BlockRows.leafInputs (b : BlockRows) : Option (List Bytes) := b.rows.mapM Row.leafInput

/-- `EMPTY[0]`. -/
def emptyLeaf (H : Hash) : Bytes := empty H emptyInput 0

def blockMerkleRoot (H : Hash) (leaves : List Bytes) : Bytes := fixedMerkleRoot H (emptyLeaf H) leaves

def blockMerkleLeaves (H : Hash) (b : BlockRows) : Option (List Bytes) :=
  b.leafInputs.map fun inputs => inputs.map H.digest

/-- The root of a block; `none` where a row cannot be encoded. -/
def BlockRows.merkleRoot (H : Hash) (b : BlockRows) : Option Bytes :=
  (blockMerkleLeaves H b).map (blockMerkleRoot H)

/-- Everything that is hashed for the root. -/
def BlockRows.hashed (H : Hash) (b : BlockRows) : List Bytes :=
  match b.leafInputs with
  | none => []
  | some inputs => inputs ++ fixedInputs H (emptyLeaf H) (inputs.map H.digest)

/-! ### Proofs -/

/-- A number as the operand of a bit operation. -/
def toInt32 (x : ℤ) : ℤ := (x + 2 ^ 31) % 2 ^ 32 - 2 ^ 31

/-- The node that the loop of `verifyFixedMerkleProof` ends with. -/
def proofNode (H : Hash) : Bytes → ℤ → List Bytes → Bytes
  | node, _, [] => node
  | node, idx, sib :: siblings =>
    proofNode H (if toInt32 idx % 2 = 0 then nodeHash H node sib else nodeHash H sib node)
      (toInt32 idx / 2) siblings

/-- What the loop hashes. -/
def proofInputs (H : Hash) : Bytes → ℤ → List Bytes → List Bytes
  | _, _, [] => []
  | node, idx, sib :: siblings =>
    (if toInt32 idx % 2 = 0 then nodeInput node sib else nodeInput sib node) ::
      proofInputs H (if toInt32 idx % 2 = 0 then nodeHash H node sib else nodeHash H sib node)
        (toInt32 idx / 2) siblings

def verifyFixedMerkleProof (H : Hash) (root leaf : Bytes) (index : ℤ) (siblings : List Bytes) : Bool :=
  proofNode H leaf index siblings = root

end XChainIndexer.BlockMerkle.Content
