import ZbxChain.Consensus.Recovery
import ZbxChain.Consensus.DeliveryOrder
import ZbxChain.Consensus.Justification
import ZbxChain.Consensus.OneChain
import ZbxChain.Node.ProposerAgreement
import ZbxChain.Consensus.Views
import ZbxChain.Consensus.EpochRuns
import ZbxChain.Consensus.GossipDedup
import ZbxChain.Node.BaseFee
import ZbxChain.Execution.LaneIndependence
import ZbxChain.Node.AgreedBlock
import ZbxChain.Node.FullView
import ZbxChain.Node.WholeState
import ZbxChain.Evm.Panics
import ZbxChain.Staking.Rehydration
import ZbxChain.Staking.SharedRewards
import ZbxChain.Light.HeaderChain
import ZbxChain.Light.TxProofs
import ZbxChain.Mempool.GapFree
import ZbxChain.Sync.FastSync
import ZbxChain.Node.DroppedCandidates
import ZbxChain.Lending.BackedPositions
import ZbxChain.Pool.CleanCalls
import ZbxChain.Pool.PairRuns
import ZbxChain.State.Destruction
import ZbxChain.Trie.FailedCommit
import ZbxChain.Trie.Iterator
import ZbxChain.Node.IntervalMint
import ZbxChain.Rlp.SafeReading
import ZbxChain.Trie.BuiltNodes
import ZbxChain.Consensus.ViewChanges
import ZbxChain.Consensus.Finality
import ZbxChain.Execution.ReceiptsBinding
import ZbxChain.Execution.GasLimit
import ZbxChain.Execution.FailedCalls
import ZbxChain.Execution.Fees
import ZbxChain.Zvm.SignedWords
import ZbxChain.Zvm.Boundaries
import ZbxChain.Bridge.FailedExecutions
import ZbxChain.Node.SlashBurns
import ZbxChain.Staking.Correlation
import ZbxChain.Staking.DurableEvidence
import ZbxChain.Mempool.Affordable
import ZbxChain.Staking.IntervalRewards
import ZbxChain.Pruner.ExactRuns
import ZbxChain.Xcl.Delivery
