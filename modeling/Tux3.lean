import Tux3.Basic
import Tux3.Lib.Count
import Tux3.Bitops
import Tux3.BitArray
import Tux3.Balloc
import Tux3.BallocSearch
import Tux3.FreeBlocks
import Tux3.Accounting
import Tux3.BallocExact
import Tux3.Lib.Segment
import Tux3.Codec
import Tux3.Log
import Tux3.Replay
import Tux3.LogReplay
import Tux3.LogSession
import Tux3.LogRoundTrip
import Tux3.LogBounds
import Tux3.Stash
import Tux3.Lib.Ring
import Tux3.StashPages
import Tux3.Commit
import Tux3.Ledger
import Tux3.DeferredFrees
import Tux3.LogChain
import Tux3.LogFailure
import Tux3.Lib.Outcome
import Tux3.Cache
import Tux3.CacheCycle
import Tux3.Rollup
import Tux3.BitmapSnapshot
import Tux3.Version
import Tux3.Lib.Rooted
import Tux3.Lib.Inherit
import Tux3.VersionIndex
import Tux3.VersionTree
import Tux3.VersionEdit
import Tux3.VersionPromote
import Tux3.VersionElements
import Tux3.VersionSweep
import Tux3.VersionDelete
import Tux3.VersionTidy
import Tux3.VersionGrowth
import Tux3.VersionReads
import Tux3.VersionWrites
import Tux3.VersionRemoval
import Tux3.VersionRuns
import Tux3.VersionExtract
import Tux3.Namei
import Tux3.LinkCounts
import Tux3.Iattr
import Tux3.AttrRoundTrip
import Tux3.AttrTimes
import Tux3.FixedTime
import Tux3.AttrStream
import Tux3.Btree
import Tux3.BtreeShape
import Tux3.BtreeProbe
import Tux3.BtreeInsert
import Tux3.BtreeCursor
import Tux3.Dir
import Tux3.DirBlocks
import Tux3.DirMap
import Tux3.Readdir
import Tux3.DirBytes
import Tux3.Revalidate
import Tux3.Buffer
import Tux3.BufferLists
import Tux3.BufferCoherence
import Tux3.XattrTable
import Tux3.XattrCounts
import Tux3.XattrCache
import Tux3.XattrFailure
import Tux3.XattrList
import Tux3.IleafRecords
import Tux3.IleafEdits
import Tux3.ItableGrowth
import Tux3.InumAlloc
import Tux3.InumRuns
import Tux3.OpenInode
import Tux3.BtreeRedirect
import Tux3.DleafSplit
import Tux3.DleafReverse
import Tux3.TreeChopExact
import Tux3.RemoveIndex
import Tux3.MapReads
import Tux3.MapAtomic
import Tux3.MapReach
import Tux3.Filemap
import Tux3.FilemapTransfers
import Tux3.FilemapServes
import Tux3.FilemapHolds
import Tux3.FileIo
import Tux3.FileBytes
import Tux3.Recovery
import Tux3.RecoveryRuns
import Tux3.BufferLinks
import Tux3.BufferRefines
import Tux3.BufferLinkRuns
import Tux3.Writeback
import Tux3.WritebackSync
import Tux3.WritebackRuns
import Tux3.NameiBlocks
import Tux3.NameiEntries
import Tux3.NameiRefines
import Tux3.NameiRuns
import Tux3.DeltaLock
import Tux3.Diskio
import Tux3.Superblock
import Tux3.Mkfs
import Tux3.CommittedBlocks
import Tux3.InodeStore
