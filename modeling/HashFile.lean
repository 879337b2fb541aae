import HashFile.Bytes.LittleEndian
import HashFile.Bytes.Crc32
import HashFile.Key
import HashFile.Word
import HashFile.Text.Hex
import HashFile.Text.Printable
import HashFile.Text.Quoted
import HashFile.Error
import HashFile.Config
import HashFile.FreeList
import HashFile.Header
import HashFile.Bucket.Basic
import HashFile.Bucket.Walk
import HashFile.Bucket.Codec
import HashFile.SparseBytes
import HashFile.DirBlock
import HashFile.Volume
import HashFile.Directory
import HashFile.BucketCache
import HashFile.StoreFile
import HashFile.Index.Basic
import HashFile.Index.Lookup
import HashFile.Index.Update
import HashFile.Index.Traverse
import HashFile.Index.Open
import HashFile.Cursor
import HashFile.Session.Basic
import HashFile.Reorganize
import HashFile.ByteMap
import HashFile.Session.Bulk
import HashFile.Cli.Help
import HashFile.Cli.Parse
import HashFile.Cli.Run
import HashFile.Script.Step
import HashFile.Script.Run
import HashFile.Main
import HashFile.Proofs.FileBytes
import HashFile.Proofs.Codec
import HashFile.Proofs.Probing
import HashFile.Proofs.ShiftBack
import HashFile.Proofs.BucketChains
import HashFile.Proofs.DirectoryRuns
import HashFile.Proofs.Allocation
import HashFile.Proofs.Runs
import HashFile.Proofs.Cache
import HashFile.Proofs.Image
import HashFile.Proofs.IndexRuns
import HashFile.Proofs.Coherence
import HashFile.Proofs.Sound
import HashFile.Proofs.Lookup
import HashFile.Proofs.Flush
import HashFile.Proofs.Reshape
import HashFile.Proofs.Split
import HashFile.Proofs.Store
import HashFile.Proofs.Reach
import HashFile.Proofs.Guards
import HashFile.Proofs.Confined
import HashFile.Proofs.Paths
import HashFile.Proofs.LockTable
import HashFile.Proofs.Opening
import HashFile.Proofs.Handover
import HashFile.Proofs.Exclusion
import HashFile.Proofs.WalkOrder
import HashFile.Proofs.Deleting
import HashFile.Proofs.Traversal
import HashFile.Proofs.Deepening
import HashFile.Proofs.Clearing
import HashFile.Proofs.BulkViews
import HashFile.Proofs.BlockSize
import HashFile.Proofs.Copying
import HashFile.Proofs.Reorganizing
import HashFile.Proofs.DirectoryDepth
import HashFile.Proofs.HeaderBlock
import HashFile.Proofs.BucketWalk
import HashFile.Proofs.BucketBlock
import HashFile.Proofs.FreeRegions
import HashFile.Proofs.CacheQueue
import HashFile.Proofs.CacheInserts
import HashFile.Proofs.CacheTable
import HashFile.Proofs.Compaction
import HashFile.Proofs.StoreRuns
import HashFile.Proofs.Growth
import HashFile.Proofs.Reachable
import HashFile.Proofs.KeyOrder
import HashFile.Proofs.Reopening
import HashFile.Proofs.Persistence
import HashFile.Proofs.Evolution
import HashFile.Proofs.SessionSteps
import HashFile.Proofs.MapSemantics
