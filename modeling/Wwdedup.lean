import Wwdedup.Crash
import Wwdedup.UseCounts
import Wwdedup.ReadYourWrites
import Wwdedup.OwnedBlocks
import Wwdedup.Handles
import Wwdedup.Dedup
import Wwdedup.Tree
import Wwdedup.Statements
import Wwdedup.Workers
import Wwdedup.Durability
import Wwdedup.SingleWrite
import Wwdedup.CachedCounts
import Wwdedup.ConcurrentWrites
import Wwdedup.Eviction
import Wwdedup.Transparency
import Wwdedup.Failures
import Wwdedup.Rename
import Wwdedup.FailedRename
import Wwdedup.FailedTruncate
import Wwdedup.CutBytes
import Wwdedup.StorageFaults
import Wwdedup.SharedOffset
import Wwdedup.QuietAccess
import Wwdedup.Truncate
import Wwdedup.Listing
import Wwdedup.ChunkLoops
import Wwdedup.Passes
import Wwdedup.SlotAddressing
import Wwdedup.SyncRequests
import Wwdedup.BlockSizes
import Wwdedup.FsRefinement
import Wwdedup.Collisions
import Wwdedup.Mutexes
import Wwdedup.NameRaces
import Wwdedup.FileInfos
import Wwdedup.BlockRaces
import Wwdedup.Space
import Wwdedup.StorageFile
