import XChainIndexer.Attest.Signers
import XChainIndexer.Batch.MintCap
import XChainIndexer.Bets.Once
import XChainIndexer.BlockMerkle.Binding
import XChainIndexer.BlockPoll.Reorgs
import XChainIndexer.BridgeSettle.Once
import XChainIndexer.CrossSettle.Released
import XChainIndexer.NativeFee
import XChainIndexer.Orders.CoinpayRollback
import XChainIndexer.Orders.Limits
import XChainIndexer.Orders.Readers
import XChainIndexer.Ownership.Rederived
import XChainIndexer.Quorum.Verdict
import XChainIndexer.Retroactive.Agree
import XChainIndexer.Retroactive.Target
import XChainIndexer.Slash.Sound
import XChainIndexer.SnapshotProof.Sound
import XChainIndexer.Staking.Deduction
import XChainIndexer.Staking.Membership
import XChainIndexer.StateTree.ContractState
import XChainIndexer.StateTree.Proofs
import XChainIndexer.StateTree.Threading
import XChainIndexer.StatusActions
import XChainIndexer.Tokens.Caps
import XChainIndexer.Votes.Electorate
import XChainIndexer.Votes.Retries
import XChainIndexer.Votes.Thresholds
import XChainIndexer.OutputFanout
import XChainIndexer.Slash.Bounty
