import Epic.Chain
import Epic.Chain.BadData
import Epic.Chain.Bitmaps
import Epic.Chain.BlockSums
import Epic.Chain.Branch
import Epic.Chain.Error
import Epic.Chain.Genesis
import Epic.Chain.HeadState
import Epic.Chain.LeafSets
import Epic.Chain.Maturity
import Epic.Chain.OrphanPool
import Epic.Chain.Orphans
import Epic.Chain.OutputHeader
import Epic.Chain.Pipe
import Epic.Chain.Pipe.Fork
import Epic.Chain.Pipe.Orphan
import Epic.Chain.Pipe.ProcessBlock
import Epic.Chain.Pipe.Schedule
import Epic.Chain.Pipe.Seed
import Epic.Chain.Pipe.SyncHeaders
import Epic.Chain.Pipe.TotalDifficulty
import Epic.Chain.Pipe.ValidateHeader
import Epic.Chain.Recovery
import Epic.Chain.Rejected
import Epic.Chain.Restart
import Epic.Chain.Run
import Epic.Chain.Shadow
import Epic.Chain.Snapshot
import Epic.Chain.Store
import Epic.Chain.Store.Bottles
import Epic.Chain.Store.Branch
import Epic.Chain.Store.HeaderDb
import Epic.Chain.Submissions
import Epic.Chain.Supply
import Epic.Chain.SyncMmr
import Epic.Chain.Tips
import Epic.Chain.TxHashSet
import Epic.Chain.TxHashSet.Apply
import Epic.Chain.TxHashSet.Bound
import Epic.Chain.TxHashSet.Discard
import Epic.Chain.TxHashSet.FastOr
import Epic.Chain.TxHashSet.Headers
import Epic.Chain.TxHashSet.Index
import Epic.Chain.TxHashSet.Trees
import Epic.Chain.TxHashSet.Unspent
import Epic.Chain.TxHashSet.Utxo
import Epic.Chain.TxHashSet.Validate
import Epic.Chain.Work
import Epic.Core.Block
import Epic.Core.Block.Assemble
import Epic.Core.Block.Compact
import Epic.Core.Block.Feijoada
import Epic.Core.Block.Header
import Epic.Core.Block.Quota
import Epic.Core.Committed
import Epic.Core.Committed.Modular
import Epic.Core.Committed.Offsets
import Epic.Core.Committed.Opening
import Epic.Core.Committed.Points
import Epic.Core.Consensus.Difficulty
import Epic.Core.Consensus.Emission
import Epic.Core.Consensus.GraphWeight
import Epic.Core.Consensus.Overage
import Epic.Core.Consensus.Retarget
import Epic.Core.Consensus.Reward
import Epic.Core.Consensus.Scaling
import Epic.Core.Consensus.ScalingBounds
import Epic.Core.Consensus.Window
import Epic.Core.Foundation
import Epic.Core.Genesis
import Epic.Core.Global
import Epic.Core.MerkleProof
import Epic.Core.Pmmr
import Epic.Core.Pmmr.Aligned
import Epic.Core.Pmmr.CompactReads
import Epic.Core.Pmmr.Family
import Epic.Core.Pmmr.Grown
import Epic.Core.Pmmr.History
import Epic.Core.Pmmr.Leaves
import Epic.Core.Pmmr.Pagination
import Epic.Core.Pmmr.Peaks
import Epic.Core.Pmmr.Position
import Epic.Core.Pmmr.Reference
import Epic.Core.Pmmr.Sizes
import Epic.Core.Pmmr.Subtree
import Epic.Core.Pmmr.TakeBack
import Epic.Core.Pmmr.Tree
import Epic.Core.Pmmr.Working
import Epic.Core.Pow.HashDifficulty
import Epic.Core.Pow.RandomX
import Epic.Core.Pow.Types
import Epic.Core.Secp
import Epic.Core.Ser.Codec
import Epic.Core.Ser.Header
import Epic.Core.Ser.Program
import Epic.Core.Ser.Reader
import Epic.Core.Ser.Total
import Epic.Core.Ser.Transaction
import Epic.Core.Ser.Writer
import Epic.Core.Transaction
import Epic.Core.Transaction.Aggregate
import Epic.Core.Transaction.AggregateLaws
import Epic.Core.Transaction.Conservation
import Epic.Core.Transaction.CutThrough
import Epic.Core.Transaction.CutThroughInPlace
import Epic.Core.Transaction.Deaggregate
import Epic.Core.Transaction.FeeToWeight
import Epic.Core.Transaction.Sorted
import Epic.Core.Transparent
import Epic.Keychain.ExtKey
import Epic.P2p.Handshake
import Epic.P2p.Msg
import Epic.P2p.Peers
import Epic.P2p.Types
import Epic.Pool.Buckets
import Epic.Pool.FeeFloor
import Epic.Pool.Pool
import Epic.Pool.TransactionPool
import Epic.Servers.MineBlock
import Epic.Servers.MinedWeight
import Epic.Servers.StateSync
import Epic.Store.AppendOnlyFile
import Epic.Store.Backend
import Epic.Store.Compact
import Epic.Store.Compacted
import Epic.Store.PruneList
import Epic.Store.PruneList.Canonical
import Epic.Store.PruneList.Count
import Epic.Store.PruneList.Dense
import Epic.Store.PruneList.Pruned
import Epic.Store.PruneList.Shift
import Epic.Store.PruneList.Word
import Epic.Support.RateCounter
import Epic.Util.Apportion
import Epic.Util.Bytes
import Epic.Util.Codec
import Epic.Util.DyadicBlock
import Epic.Util.MachineInt
import Epic.Util.MountainRange
import Epic.Util.Outcome
import Epic.Util.Precedence
import Epic.Util.Rank
import Epic.Util.Routine
import Epic.Util.Schedule
import Epic.Util.TwoPointer
