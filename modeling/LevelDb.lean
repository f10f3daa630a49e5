import LevelDb.Compaction.BaseLevel
import LevelDb.Compaction.Drop
import LevelDb.Compaction.Failure
import LevelDb.Compaction.Install
import LevelDb.Compaction.Outputs
import LevelDb.Compaction.Overlap
import LevelDb.Compaction.Reads
import LevelDb.Compaction.Recency
import LevelDb.Compaction.Work
import LevelDb.Db.Batch
import LevelDb.Db.BatchFormat
import LevelDb.Db.BatchInsert
import LevelDb.Db.BgError
import LevelDb.Db.Calls
import LevelDb.Db.CriticalSections
import LevelDb.Db.FileNames
import LevelDb.Db.FileSearch
import LevelDb.Db.FileSteps
import LevelDb.Db.Histories
import LevelDb.Db.History
import LevelDb.Db.Host
import LevelDb.Db.InternalKeys
import LevelDb.Db.Invariant
import LevelDb.Db.KeyComparator
import LevelDb.Db.Layout
import LevelDb.Db.Lookup
import LevelDb.Db.MemTable
import LevelDb.Db.MemTableBytes
import LevelDb.Db.Naming
import LevelDb.Db.Numbers
import LevelDb.Db.Obsolete
import LevelDb.Db.Process
import LevelDb.Db.Reads
import LevelDb.Db.Recovery
import LevelDb.Db.References
import LevelDb.Db.Repair
import LevelDb.Db.RepairTables
import LevelDb.Db.Replay
import LevelDb.Db.Schedule
import LevelDb.Db.Serial
import LevelDb.Db.Site
import LevelDb.Db.SiteFiles
import LevelDb.Db.SiteInvariant
import LevelDb.Db.SiteOpen
import LevelDb.Db.SiteSteps
import LevelDb.Db.SkipList
import LevelDb.Db.SkipListStores
import LevelDb.Db.Snapshots
import LevelDb.Db.State
import LevelDb.Db.Survival
import LevelDb.Db.TableCache
import LevelDb.Db.Transparency
import LevelDb.Db.Write
import LevelDb.Env.Durability
import LevelDb.Env.FileName
import LevelDb.Env.MapFile
import LevelDb.Env.MemEnv
import LevelDb.Env.OldContents
import LevelDb.Env.SetCurrentFile
import LevelDb.Format
import LevelDb.Iterator.Cursor
import LevelDb.Iterator.DbIter
import LevelDb.Lib.BackReference
import LevelDb.Lib.Bisect
import LevelDb.Lib.Blocks
import LevelDb.Lib.Buffer
import LevelDb.Lib.Chains
import LevelDb.Lib.Concat
import LevelDb.Lib.Iterator
import LevelDb.Lib.Loop
import LevelDb.Lib.Memory
import LevelDb.Lib.Merge
import LevelDb.Lib.MultiVersion
import LevelDb.Lib.Reader
import LevelDb.Lib.RefCount
import LevelDb.Lib.RefWord
import LevelDb.Lib.Regions
import LevelDb.Lib.Ring
import LevelDb.Lib.Scan
import LevelDb.Lib.SerialLog
import LevelDb.Lib.SortedList
import LevelDb.Log.Checksum
import LevelDb.Log.Damage
import LevelDb.Log.Failure
import LevelDb.Log.InitialOffset
import LevelDb.Log.Offsets
import LevelDb.Log.Placed
import LevelDb.Log.Progress
import LevelDb.Log.Reader
import LevelDb.Log.RoundTrip
import LevelDb.Log.Scan
import LevelDb.Log.Torn
import LevelDb.Log.UnknownType
import LevelDb.Log.Writer
import LevelDb.SnappySrc.ArrayWriter
import LevelDb.SnappySrc.Compressor
import LevelDb.SnappySrc.Decompressor
import LevelDb.SnappySrc.Emit
import LevelDb.SnappySrc.Format
import LevelDb.SnappySrc.Fragment
import LevelDb.SnappySrc.Matches
import LevelDb.SnappySrc.RoundTrip
import LevelDb.SnappySrc.Stream
import LevelDb.SnappySrc.Uncompress
import LevelDb.Table.Access
import LevelDb.Table.Block
import LevelDb.Table.BlockBounds
import LevelDb.Table.BlockCursor
import LevelDb.Table.BlockImage
import LevelDb.Table.Builder
import LevelDb.Table.Format
import LevelDb.Table.Layout
import LevelDb.Table.MergeErrors
import LevelDb.Table.Merger
import LevelDb.Table.MergerCursor
import LevelDb.Table.Offset
import LevelDb.Table.PortSnappy
import LevelDb.Table.Progress
import LevelDb.Table.ReadErrors
import LevelDb.Table.RoundTrip
import LevelDb.Table.TwoLevel
import LevelDb.Table.TwoLevelCursor
import LevelDb.Table.WellFormed
import LevelDb.Util.Arena
import LevelDb.Util.Cache
import LevelDb.Util.CacheMemory
import LevelDb.Util.CacheRefinement
import LevelDb.Util.CacheRefs
import LevelDb.Util.CacheSession
import LevelDb.Util.Coding
import LevelDb.Util.CodingPortable
import LevelDb.Util.Comparator
import LevelDb.Util.Crc32c
import LevelDb.Util.HandleMap
import LevelDb.Util.HandleTable
import LevelDb.Util.Separator
import LevelDb.Util.Spelling
import LevelDb.Util.Varint
import LevelDb.Util.VarintInput
import LevelDb.Version.ApproximateSizes
import LevelDb.Version.Closure
import LevelDb.Version.Concatenating
import LevelDb.Version.Edit
import LevelDb.Version.EditObject
import LevelDb.Version.Encode
import LevelDb.Version.Files
import LevelDb.Version.Get
import LevelDb.Version.Grammar
import LevelDb.Version.Growth
import LevelDb.Version.Inputs
import LevelDb.Version.Layout
import LevelDb.Version.Manifest
import LevelDb.Version.ManifestFile
import LevelDb.Version.Picking
import LevelDb.Version.Placement
import LevelDb.Version.Save
import LevelDb.Version.Selection
import LevelDb.Version.Store
import LevelDb.Version.Tables
