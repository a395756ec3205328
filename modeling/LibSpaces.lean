import LibSpaces.Base.Bytes
import LibSpaces.Base.Transition
import LibSpaces.Base.Varint
import LibSpaces.Spaces.Key
import LibSpaces.Journal.Entry
import LibSpaces.Journal.Recover
import LibSpaces.Journal.TornTail
import LibSpaces.Journal.State
import LibSpaces.Journal.Writers
import LibSpaces.Journal.Checkpoint
import LibSpaces.Transactions.Allocator
import LibSpaces.Transactions.Coordinator
import LibSpaces.Transactions.Invariant
import LibSpaces.Transactions.MergeDown
import LibSpaces.Transactions.Operations
import LibSpaces.Transactions.FailedCommit
import LibSpaces.Transactions.Isolation
import LibSpaces.Transactions.ReaderCounts
import LibSpaces.Transactions.CommitPaths
import LibSpaces.Transactions.Marks
import LibSpaces.Transactions.CommitOrder
import LibSpaces.Transactions.Views
import LibSpaces.Transactions.Stamps
import LibSpaces.Base.Chain
import LibSpaces.Base.OrderedMap
import LibSpaces.Base.Slots
import LibSpaces.Base.SlotMap
import LibSpaces.Stx.Node
import LibSpaces.Stx.Tree
import LibSpaces.Stx.Operations
import LibSpaces.Stx.Shape
import LibSpaces.Stx.Memory
import LibSpaces.Stx.Balance
import LibSpaces.Stx.Underflow
import LibSpaces.Stx.Removal
import LibSpaces.Stx.Represents
import LibSpaces.Stx.Search
import LibSpaces.Stx.MapRuns
import LibSpaces.Stx.Wellformed
import LibSpaces.Stx.Leb128
import LibSpaces.Stx.Uleb128
import LibSpaces.Spaces.Codec
import LibSpaces.Spaces.StoredSize
import LibSpaces.Stx.PageCodec
import LibSpaces.Stx.SurfaceSlots
import LibSpaces.Stx.SurfaceMoves
import LibSpaces.Stx.SurfaceRuns
import LibSpaces.Network.Replicants
import LibSpaces.Network.Acknowledgements
import LibSpaces.Transactions.Addresses
import LibSpaces.Network.ReplicatedMerge
import LibSpaces.Network.Quorum
import LibSpaces.Transactions.AbstractedStorage
import LibSpaces.Transactions.WriteLock
import LibSpaces.Transactions.Returns
import LibSpaces.Spaces.DbmsLock
import LibSpaces.Transactions.SoleTransaction
import LibSpaces.Transactions.BlockAccess
import LibSpaces.Transactions.SqliteAllocator
import LibSpaces.Transactions.BlockCache
import LibSpaces.Transactions.CacheRollback
import LibSpaces.Transactions.BlockExistence
import LibSpaces.Transactions.ReadCache
import LibSpaces.Transactions.BlockVersions
import LibSpaces.Transactions.LatestVersions
import LibSpaces.Network.Server
import LibSpaces.Network.LostWrites
import LibSpaces.Spaces.Identities
import LibSpaces.Stx.Iterators
import LibSpaces.Stx.Indices
import LibSpaces.Stx.Relations
import LibSpaces.Stx.Persistence
import LibSpaces.Stx.Reopening
import LibSpaces.Stx.NodeStates
import LibSpaces.Stx.BootBlocks
import LibSpaces.Spaces.RangeQuery
import LibSpaces.Spaces.Container
import LibSpaces.Spaces.RangeIterator
import LibSpaces.Spaces.LargeValues
import LibSpaces.Spaces.Delivery
import LibSpaces.Base.Bits
import LibSpaces.Rabbit.Kernel
import LibSpaces.Rabbit.Placement
import LibSpaces.Rabbit.Writing
import LibSpaces.Rabbit.Iteration
import LibSpaces.Rabbit.Rehash
import LibSpaces.Rabbit.UnorderedMap
import LibSpaces.Stx.Saveable
import LibSpaces.Base.ByteMemory
import LibSpaces.Lz4.Format
import LibSpaces.Lz4.Copies
import LibSpaces.Lz4.Decompress
import LibSpaces.Lz4.Matches
import LibSpaces.Lz4.Compress
import LibSpaces.Stx.StoredPages
import LibSpaces.Stx.PageBlocks
import LibSpaces.Spaces.TreeBlocks
import LibSpaces.Transactions.SoleWriter
import LibSpaces.Spaces.SetType
import LibSpaces.Spaces.Database
